import ApiContract.Json.References

/-!
# The OpenAPI dialect of schemas

OpenAPI writes a few keywords in its own way. `normalizeDialect` writes them as JSON Schema does, at
every place that is not data.

* `nullable: true` makes null one more type and one more value of an enumeration.
* `exclusiveMinimum: true` makes the bound beside it exclusive; `false` says nothing. The same holds of
  the maximum.
-/

namespace ApiContract

namespace Dialect

/-- A single type becomes a list that allows null too. -/
def allowNullType (fields : Fields) : Fields :=
  match fields.get? "type" with
  | some (.string type) => fields.insert "type" (.array [.string type, .string "null"])
  | _ => fields

/-- An enumeration gets null as its last value, unless it has it already. -/
def allowNullValue (fields : Fields) : Fields :=
  match fields.get? "enum" with
  | some (.array values) =>
    if Json.isAmong .null values then fields
    else fields.insert "enum" (.array (values ++ [.null]))
  | _ => fields

def normalizeNullable (fields : Fields) : Fields :=
  match fields.get? "nullable" with
  | some (.bool true) => allowNullValue (allowNullType (fields.erase "nullable"))
  | _ => fields

/-- A flag that makes a bound exclusive is replaced by the bound itself. -/
def normalizeBound (exclusive inclusive : String) (fields : Fields) : Fields :=
  match fields.get? exclusive with
  | some (.bool true) =>
    let rest := fields.erase exclusive
    match rest.get? inclusive with
    | some bound => (rest.erase inclusive).insert exclusive bound
    | none => rest
  | some (.bool false) => fields.erase exclusive
  | _ => fields

/-- The keywords of one schema. -/
def normalizeKeywords (fields : Fields) : Fields :=
  normalizeBound "exclusiveMaximum" "maximum"
    (normalizeBound "exclusiveMinimum" "minimum" (normalizeNullable fields))

end Dialect

mutual

/-- A document with every schema in it written as JSON Schema does. -/
def normalizeDialect : Json → Json
  | .object fields => .object (Dialect.normalizeKeywords (normalizeFields fields))
  | .array items => .array (normalizeItems items)
  | other => other

def normalizeItems : List Json → List Json
  | [] => []
  | item :: rest => normalizeDialect item :: normalizeItems rest

def normalizeFields : Fields → Fields
  | [] => []
  | (key, value) :: rest =>
    (key, if isDataKeyword key then value else normalizeDialect value) :: normalizeFields rest

end

end ApiContract
