import ApiContract.Json.Part
import ApiContract.Schema.Target

/-!
# References out of a document

A schema has to stand on its own. Before anything else is looked at, every reference in it is checked to
stay in the document.

* `subschemas`, `nestedSchemas`: the schemas inside a schema, wherever keywords hold them.
* `foreignFault?`: what is wrong with the first reference that leads out.
-/

namespace ApiContract

/-! ## Schemas inside a schema -/

/-- The keywords that hold one schema. -/
def schemaKeywords : List String :=
  ["additionalItems", "additionalProperties", "contains", "else", "if", "not", "propertyNames",
    "then"]

/-- The keywords that hold a list of schemas. -/
def schemaListKeywords : List String := ["allOf", "anyOf", "oneOf"]

/-- The keywords that hold schemas by name. -/
def schemaTableKeywords : List String := ["definitions", "patternProperties", "properties"]

/-- The schemas that a keyword holds. -/
def schemasUnder {schema : Json} (keyword : String) (value : Part schema) : List (Part schema) :=
  if schemaKeywords.contains keyword then [value]
  else if schemaListKeywords.contains keyword then value.items
  else if schemaTableKeywords.contains keyword then value.fields.map (·.2)
  else if keyword = "items" then if value.value.isObject then [value] else value.items
  else if keyword = "dependencies" then
    (value.fields.map (·.2)).filter fun part => part.value.isObject
  else []

/-- The schemas directly inside a schema. -/
def subschemas (schema : Json) : List (Part schema) :=
  schema.fieldParts.flatMap fun field => schemasUnder field.1 field.2

/-- The schemas anywhere inside a schema. -/
def nestedSchemas (schema : Json) : List Json :=
  (subschemas schema).flatMap fun part => part.value :: nestedSchemas part.value
termination_by sizeOf schema
decreasing_by exact part.smaller

/-! ## References -/

/-- The beginnings of the identifiers of known dialects, which need not be fetched. -/
def dialectFamilies : List String :=
  ["https://json-schema.org/draft/2020-12/", "https://json-schema.org/draft/2019-09/",
    "http://json-schema.org/draft-07/", "http://json-schema.org/draft-06/",
    "http://json-schema.org/draft-04/"]

def isDialectReference (reference : String) : Bool :=
  dialectFamilies.any fun family => family.toList.isPrefixOf reference.toList

/-- Whether the text is the identifier of a known dialect. -/
def isDialect (reference : String) : Bool :=
  let name := reference.toList.reverse.dropWhile (· = '#')
  dialectFamilies.any fun family => (family ++ "schema").toList.reverse == name

/-- Whether a reference stays in the document by its form. -/
def isLocalForm (reference : String) : Bool := reference.toList.head? == some '#'

/-- The references and the dialect of one schema. Nothing is looked at from a known dialect on. -/
def outgoing (schema : Json) : List String :=
  (["$ref", "$schema"].filterMap fun key => schema.getString? key).takeWhile fun reference =>
    !isDialectReference reference

/-- The references of one schema that do not stay in the document by their form; also those of a
schema that it leads to within itself. -/
def leaving (schema : Json) : List String :=
  (outgoing schema).flatMap fun reference =>
    if reference = "#" then []
    else if isLocalForm reference then
      (schema.resolve? reference).toList.flatMap fun target =>
        (outgoing target).filter fun inner => !isLocalForm inner
    else [reference]

/-! ## Faults -/

/-- What is wrong with the text of a reference. -/
def malformedReference? (reference : String) : Option String :=
  (Uri.fault? reference).map fun reason => (TargetError.malformed reference reason).message

/-- What is wrong with the dialect of an inner schema. -/
def unknownDialect? (schema : Json) : Option String :=
  (schema.getString? "$schema").bind fun dialect =>
    if isDialect dialect then none else some ("Unknown specification: " ++ dialect)

/-- What is wrong with a reference to another document. -/
def unknownDocument? (reference : String) : Option String :=
  let uri := documentUri reference
  if uri = Uri.text rootUri then none
  else
    some (TargetError.unknownDocument uri
      ("external reference '" ++ uri ++ "' is not supported")).message

/-- What is wrong with the references in a schema. Malformed texts and unknown dialects come first,
references to other documents after them. -/
def foreignFault? (schema : Json) : Option String :=
  let inner := nestedSchemas schema
  let references := (schema :: inner).flatMap leaving
  references.findSome? malformedReference? <|> inner.findSome? unknownDialect? <|>
    references.findSome? unknownDocument?

end ApiContract
