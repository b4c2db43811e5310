import ApiContract.Json.Basic

/-!
# Values as schemas see them

To a schema numbers of one value are equal, whether they are integers or floats.

* `SchemaType`: the seven types, with `SchemaType.holds`.
* `Json.sameValue`: equality of values.
-/

namespace ApiContract

/-- A type of values. -/
inductive SchemaType where
  | array | boolean | integer | null | number | object | string
deriving DecidableEq, Repr

namespace SchemaType

def name : SchemaType → String
  | array => "array"
  | boolean => "boolean"
  | integer => "integer"
  | null => "null"
  | number => "number"
  | object => "object"
  | string => "string"

/-- Every type, in the order of the names. -/
def all : List SchemaType := [array, boolean, integer, null, number, object, string]

def ofName? (name : String) : Option SchemaType := all.find? (·.name == name)

/-- Whether a value has a type; a float without a fraction is an integer too. -/
def holds : SchemaType → Json → Bool
  | array, .array _ => true
  | boolean, .bool _ => true
  | integer, .number n => n.isIntegral
  | null, .null => true
  | number, .number _ => true
  | object, .object _ => true
  | string, .string _ => true
  | _, _ => false

end SchemaType

namespace Json

mutual

/-- Equality of values, numbers being compared by what they mean. -/
def sameValue : Json → Json → Bool
  | null, null => true
  | bool a, bool b => a == b
  | number a, number b => a.sameValue b
  | string a, string b => a == b
  | array a, array b => sameValueItems a b
  | object a, object b => sameValueFields a b
  | _, _ => false

def sameValueItems : List Json → List Json → Bool
  | [], [] => true
  | a :: as, b :: bs => sameValue a b && sameValueItems as bs
  | _, _ => false

def sameValueFields : Fields → Fields → Bool
  | [], [] => true
  | (k, a) :: as, (l, b) :: bs => k == l && sameValue a b && sameValueFields as bs
  | _, _ => false

end

/-- Whether no two items of a list are equal. -/
def allDistinct : List Json → Bool
  | [] => true
  | item :: rest => !rest.any (sameValue item) && allDistinct rest

end Json

end ApiContract
