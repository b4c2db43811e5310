import ApiContract.Json.Basic

/-!
# The schema of schemas

`metaSchema` is the schema that every schema has to satisfy: it gives each keyword the shape of its value.
-/

namespace ApiContract

namespace MetaSchema

/-- A reference to the schema of schemas, or to one of its definitions. -/
def reference (target : String) : Json := .object [("$ref", .string target)]

/-- Any schema. -/
def anySchema : Json := reference "#"

def definition (name : String) : Json := reference ("#/definitions/" ++ name)

/-- Values of a type. -/
def typed (name : String) : Json := .object [("type", .string name)]

/-- Texts of a format. -/
def formatted (format : String) : Json :=
  .object [("format", .string format), ("type", .string "string")]

/-- Objects whose properties satisfy a schema. -/
def tableOf (entry : Json) : Json :=
  .object [("additionalProperties", entry), ("type", .string "object")]

/-- The schemas that others refer to by name. -/
def definitions : Json :=
  .object
    [("nonNegativeInteger", .object [("minimum", .ofNat 0), ("type", .string "integer")]),
     ("nonNegativeIntegerDefault0",
       .object [("allOf",
         .array [definition "nonNegativeInteger", .object [("default", .ofNat 0)]])]),
     ("schemaArray",
       .object [("items", anySchema), ("minItems", .ofNat 1), ("type", .string "array")]),
     ("simpleTypes",
       .object [("enum",
         .strings ["array", "boolean", "integer", "null", "number", "object", "string"])]),
     ("stringArray",
       .object [("items", typed "string"), ("type", .string "array"),
         ("uniqueItems", .bool true)])]

/-- The schemas of the values of keywords. -/
def keywords : List (String × Json) :=
  [("$comment", typed "string"),
   ("$id", formatted "uri-reference"),
   ("$ref", formatted "uri-reference"),
   ("$schema", formatted "uri"),
   ("additionalItems", anySchema),
   ("additionalProperties", anySchema),
   ("allOf", definition "schemaArray"),
   ("anyOf", definition "schemaArray"),
   ("const", .bool true),
   ("contains", anySchema),
   ("contentEncoding", typed "string"),
   ("contentMediaType", typed "string"),
   ("default", .bool true),
   ("definitions", tableOf anySchema),
   ("dependencies",
     tableOf (.object [("anyOf", .array [anySchema, definition "stringArray"])])),
   ("description", typed "string"),
   ("else", anySchema),
   ("enum", .object [("items", .bool true), ("type", .string "array")]),
   ("examples", .object [("items", .bool true), ("type", .string "array")]),
   ("exclusiveMaximum", typed "number"),
   ("exclusiveMinimum", typed "number"),
   ("format", typed "string"),
   ("if", anySchema),
   ("items", .object [("anyOf", .array [anySchema, definition "schemaArray"])]),
   ("maxItems", definition "nonNegativeInteger"),
   ("maxLength", definition "nonNegativeInteger"),
   ("maxProperties", definition "nonNegativeInteger"),
   ("maximum", typed "number"),
   ("minItems", definition "nonNegativeIntegerDefault0"),
   ("minLength", definition "nonNegativeIntegerDefault0"),
   ("minProperties", definition "nonNegativeIntegerDefault0"),
   ("minimum", typed "number"),
   ("multipleOf", .object [("exclusiveMinimum", .ofNat 0), ("type", .string "number")]),
   ("not", anySchema),
   ("oneOf", definition "schemaArray"),
   ("pattern", formatted "regex"),
   ("patternProperties",
     .object [("additionalProperties", anySchema),
       ("propertyNames", .object [("format", .string "regex")]), ("type", .string "object")]),
   ("properties", tableOf anySchema),
   ("propertyNames", anySchema),
   ("readOnly", typed "boolean"),
   ("required", definition "stringArray"),
   ("then", anySchema),
   ("title", typed "string"),
   ("type", .object [("anyOf", .array
     [definition "simpleTypes",
      .object [("items", definition "simpleTypes"), ("minItems", .ofNat 1),
        ("type", .string "array"), ("uniqueItems", .bool true)]])]),
   ("uniqueItems", typed "boolean")]

end MetaSchema

/-- The schema that every schema has to satisfy. -/
def metaSchema : Json :=
  .object
    [("definitions", MetaSchema.definitions),
     ("properties", .object MetaSchema.keywords),
     ("type", .strings ["object", "boolean"])]

end ApiContract
