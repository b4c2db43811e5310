import ApiContract.Schema.Applicator
import ApiContract.Schema.Foreign

/-!
# Requirements of keywords

The value of a keyword has to have a certain shape, and the schemas in it have to be schemas. Parts that
are reached by references are held to this alone, which is laxer than the schema of schemas.

* `Requirement`: one thing that a keyword asks of its value.
* `keywordRequirements`: what a keyword asks, in the order in which it is checked.
-/

namespace ApiContract

/-- What a keyword asks of its value. -/
inductive Requirement (schema : Json) where
  /-- The value cannot be used. -/
  | refuses (reason : String)
  /-- A part of the value has to be a schema. -/
  | holds (part : Part schema)

namespace Requirement

/-! ## Shapes -/

/-- A value that should have been of another type. -/
def mistyped {schema : Json} (type : SchemaType) (value : Json) : Requirement schema :=
  refuses (Assertion.typeMessage [type.name] value)

/-- Asks for a type of value. -/
def ofType {schema : Json} (type : SchemaType) (value : Json) : List (Requirement schema) :=
  if type.holds value then [] else [mistyped type value]

/-- Asks for a pattern. What is said to be none is `told`. -/
def ofPattern {schema : Json} (text : String) (told : Json) : List (Requirement schema) :=
  if (Pattern.parse? text).isSome then [] else [refuses (told.compact ++ " is not a \"regex\"")]

/-- Asks for a list of texts. -/
def ofNames {schema : Json} (value : Json) : List (Requirement schema) :=
  match value with
  | .array names => names.flatMap (ofType .string)
  | _ => [mistyped .array value]

/-- Asks for names of types. A single name, also in a list of its own, is told apart from several. -/
def ofTypeNames {schema : Json} (value : Json) : List (Requirement schema) :=
  match value with
  | .string name => known name
  | .array [.string name] => known name
  | .array [_] => [mistyped .string value]
  | .array names => names.flatMap fun item =>
    match item with
    | .string name =>
      if (SchemaType.ofName? name).isSome then []
      else
        [refuses (item.compact ++ " is not one of " ++
          (Json.strings (SchemaType.all.map SchemaType.name)).compact)]
    | _ => [mistyped .string item]
  | _ => [refuses (Assertion.typeMessage ["array", "string"] value)]
where
  /-- Asks for the name of a type. -/
  known (name : String) : List (Requirement schema) :=
    if (SchemaType.ofName? name).isSome then [] else [refuses "Unexpected type"]

/-! ## Schemas -/

/-- Asks for a list of schemas. -/
def ofSchemas {schema : Json} (value : Part schema) : List (Requirement schema) :=
  match value.value with
  | .array _ => value.items.map holds
  | _ => [mistyped .array value.value]

/-- Asks for schemas by name. -/
def ofTable {schema : Json} (value : Part schema) : List (Requirement schema) :=
  match value.value with
  | .object _ => value.fields.map fun field => holds field.2
  | _ => [mistyped .object value.value]

/-- Asks for schemas by pattern. A schema under a text that is no pattern is told in place of the
text. -/
def ofPatterns {schema : Json} (value : Part schema) : List (Requirement schema) :=
  match value.value with
  | .object _ =>
    value.fields.flatMap fun field => ofPattern field.1 field.2.value ++ [holds field.2]
  | _ => [mistyped .object value.value]

/-- Asks for schemas or lists of names, by name. -/
def ofDependencies {schema : Json} (value : Part schema) : List (Requirement schema) :=
  match value.value with
  | .object _ => value.fields.flatMap fun field =>
    match field.2.value with
    | .array _ => ofNames field.2.value
    | _ => [holds field.2]
  | _ => [mistyped .object value.value]

/-- Asks for what may describe items: a list of schemas or an object. Anything else is passed over. -/
def ofItems {schema : Json} (value : Part schema) : List (Requirement schema) :=
  match value.value with
  | .array _ => value.items.map holds
  | .object _ => [holds value]
  | _ => []

end Requirement

open Requirement in
/-- What a keyword asks of its value, among the keywords of a schema. -/
def keywordRequirements {schema : Json} (keywords : Fields) (keyword : String)
    (value : Part schema) : List (Requirement schema) :=
  match keyword with
  | "additionalItems" =>
    match keywords.get? "items" with
    | some (.array _) => if value.value.isObject then [holds value] else []
    | some (.object _) | some (.bool _) | none => []
    | some _ => [refuses (Assertion.typeMessage ["array", "boolean", "object"] value.value)]
  | "additionalProperties" =>
    match value.value with
    | .bool true => []
    | other =>
      (schema.part? "patternProperties").toList.flatMap ofPatterns ++
        (schema.part? "properties").toList.flatMap ofTable ++
        (if other.same (.bool false) then [] else [holds value])
  | "properties" => if restrictsProperties keywords then [] else ofTable value
  | "patternProperties" => if restrictsProperties keywords then [] else ofPatterns value
  | "propertyNames" => if value.value.isObject then [holds value] else []
  | "allOf" | "anyOf" | "oneOf" => ofSchemas value
  | "contains" | "not" => [holds value]
  | "if" =>
    let outcomes := (schema.part? "then").toList ++ (schema.part? "else").toList
    if outcomes.isEmpty then [] else (value :: outcomes).map holds
  | "items" => ofItems value
  | "dependencies" => ofDependencies value
  | "type" => ofTypeNames value.value
  | "enum" => ofType .array value.value
  | "required" => ofNames value.value
  | "pattern" =>
    match value.value with
    | .string text => ofPattern text value.value
    | other => [mistyped .string other]
  | "format" => ofType .string value.value
  | "contentMediaType" =>
    match value.value with
    | .string "application/json" =>
      (keywords.get? "contentEncoding").toList.flatMap (ofType .string)
    | other => ofType .string other
  | "contentEncoding" =>
    if keywords.hasKey "contentMediaType" then [] else ofType .string value.value
  | "minimum" | "maximum" | "exclusiveMinimum" | "exclusiveMaximum" | "multipleOf" =>
    ofType .number value.value
  | "minLength" | "maxLength" | "minItems" | "maxItems" | "minProperties" | "maxProperties" =>
    ofType .integer value.value
  | _ => []

end ApiContract
