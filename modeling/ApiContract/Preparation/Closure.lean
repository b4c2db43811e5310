import ApiContract.Json.Basic

/-!
# Closed schemas

`closeComponentSchemas` forbids further properties in every named schema that leaves them open, unless
it is a reference, has a discriminator, or only lists alternatives.
-/

namespace ApiContract

/-- Whether a schema consists of alternatives, whose properties it does not know. -/
def isUnion (fields : Fields) : Bool :=
  (fields.hasKey "oneOf" || fields.hasKey "anyOf") && !fields.hasKey "properties"

/-- Whether a schema leaves open which further properties there are, and can be closed. -/
def isClosable (fields : Fields) : Bool :=
  !(fields.hasKey "$ref" || fields.hasKey "additionalProperties" ||
    fields.hasKey "discriminator" || isUnion fields)

/-- A schema closed, where it can be. -/
def closeSchema : Json → Json
  | .object fields =>
    if isClosable fields then
      .object (Fields.insert "additionalProperties" (.bool false) fields)
    else .object fields
  | other => other

/-- Applies a function to the value of a key. -/
def mapField (key : String) (f : Json → Json) : Json → Json
  | .object fields =>
    .object (fields.map fun field => if field.1 == key then (field.1, f field.2) else field)
  | other => other

/-- Applies a function to the value of every key. -/
def mapFields (f : Json → Json) : Json → Json
  | .object fields => .object (fields.map fun field => (field.1, f field.2))
  | other => other

/-- A document with its named schemas closed. -/
def closeComponentSchemas (document : Json) : Json :=
  mapField "components" (mapField "schemas" (mapFields closeSchema)) document

end ApiContract
