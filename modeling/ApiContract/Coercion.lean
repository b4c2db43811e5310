import ApiContract.Json.Size
import ApiContract.Number.Literal
import ApiContract.Options
import ApiContract.Text.LowerCase

/-!
# Coercion of query values

A query carries texts. `coerceValue` turns a text into the kind of value that the schema of its place
declares, going through the properties of objects and the items of arrays; a text that cannot be
converted stays.

* `coerceInteger`, `coerceNumber`, `coerceFlag`: the conversions of a text.
* `declaredType?`: the first type of a schema other than null.
* `Coercer`: the schemas of a route's parameters, and `Coercer.coerce`, which applies them.
-/

namespace ApiContract

/-- The first declared type that is not null. -/
def declaredType? (schema : Json) : Option String :=
  match schema.get? "type" with
  | some (.string type) => some type
  | some (.array types) => (types.filterMap Json.string?).find? (· != "null")
  | _ => none

/-! ## Scalars -/

/-- A number as a value: an integer where it is one and every integer of its size is exact. -/
def numberValue (x : Binary64) : Json :=
  let n := x.truncate
  if x.isIntegral && decide (n.natAbs < Nat.pow 2 53) then .ofInt n else .number (.float x)

/-- The number that a text stands for, if it is finite. -/
def finiteNumber? (text : String) : Option Binary64 :=
  match numericText? text with
  | some (.finite x) => some x
  | _ => none

/-- The greatest integer not above a float. -/
def floorNumber (x : Binary64) : Json :=
  if x.isIntegral then numberValue x else numberValue (.ofInt x.floor)

/-- A text as an integer: the strict policy leaves fractions alone, the lenient one rounds them
down. -/
def coerceInteger (policy : CoercionPolicy) (text : String) : Option Json :=
  (finiteNumber? text).bind fun x =>
    if policy = .strict then (if x.isIntegral then some (numberValue x) else none)
    else some (floorNumber x)

def coerceNumber (text : String) : Option Json := (finiteNumber? text).map numberValue

/-- A text as a flag: the strict policy knows two words and makes null of all others, to the lenient
one all but three words are true. -/
def coerceFlag (policy : CoercionPolicy) (text : String) : Json :=
  let word := asciiLower text
  if policy = .strict then
    if word = "true" then .bool true
    else if word = "false" then .bool false
    else .null
  else .bool (!(word = "" || word = "0" || word = "false"))

/-- Converts a text; other values stay, and so does a text that cannot be converted. -/
def coerceScalar (convert : String → Option Json) : Json → Json
  | .string text => (convert text).getD (.string text)
  | other => other

/-- A text as the array of the pieces between its commas. -/
def splitItems : Json → Json
  | .string text => .array ((text.toList.splitOn ',').map fun piece => .string (String.ofList piece))
  | other => other

/-! ## Values -/

/-- Coerces a value by a schema. -/
def coerceValue (policy : CoercionPolicy) (schema value : Json) : Json :=
  match declaredType? schema with
  | some "integer" => coerceScalar (coerceInteger policy) value
  | some "number" => coerceScalar coerceNumber value
  | some "boolean" => coerceScalar (fun text => some (coerceFlag policy text)) value
  | some "array" =>
    match _h : schema.get? "items", splitItems value with
    | some inner, .array items => .array (items.map fun item => coerceValue policy inner item)
    | _, split => split
  | some "object" =>
    match _h : (schema.get? "properties").bind Json.fields?, value with
    | some properties, .object fields =>
      .object (fields.map fun field =>
        match _hp : properties.get? field.1 with
        | some inner => (field.1, coerceValue policy inner field.2)
        | none => field)
    | _, other => other
  | _ => value
termination_by sizeOf schema
decreasing_by
  · exact Json.sizeOf_get?_lt _h
  · obtain ⟨part, hpart, hfields⟩ := Option.bind_eq_some_iff.1 _h
    have h1 := Json.sizeOf_get?_lt hpart
    have h2 := Json.sizeOf_fields_lt hfields
    have h3 := Fields.sizeOf_get?_lt _hp
    omega

/-! ## Parameters -/

/-- What a route needs to coerce its query: the policy, and the schemas by parameter name in lower
case. Of several schemas with one name the last counts. -/
structure Coercer where
  policy : CoercionPolicy
  schemas : Fields

namespace Coercer

/-- The coercer of named schemas. -/
def ofSchemas (policy : CoercionPolicy) (schemas : List (String × Json)) : Coercer :=
  ⟨policy, Fields.ofList (schemas.map fun entry => (lowerCase entry.1, entry.2))⟩

/-- Coerces every parameter that has a schema; names are compared without regard to case. -/
def coerce (coercer : Coercer) (parameters : Fields) : Fields :=
  if coercer.policy.isEnabled then
    parameters.map fun entry =>
      match coercer.schemas.get? (lowerCase entry.1) with
      | some schema => (entry.1, coerceValue coercer.policy schema entry.2)
      | none => entry
  else parameters

end Coercer

end ApiContract
