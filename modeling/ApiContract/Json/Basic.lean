import ApiContract.Number.Basic

/-!
# JSON values

`Json` is a document or a part of one. The fields of an object are kept in a list; every object of a
document is sorted by key and has each key once, which `insertField` keeps so.

* `Json.same`: equality of values as written.
* `Json.get?`, `Json.insert`, `Json.erase`: the fields of an object.
* `Json.objectOf`: an object of fields given in any order.
-/

namespace ApiContract

/-- A JSON value. -/
inductive Json where
  | null
  | bool (b : Bool)
  | number (n : Number)
  | string (s : String)
  | array (items : List Json)
  | object (fields : List (String × Json))
deriving Repr, Inhabited

/-- The fields of an object. -/
abbrev Fields := List (String × Json)

/-! ## Fields -/

namespace Fields

/-- The value of a key. -/
def get? (key : String) : Fields → Option Json
  | [] => none
  | (k, v) :: rest => if k == key then some v else get? key rest

def hasKey (fields : Fields) (key : String) : Bool := (fields.get? key).isSome

/-- Sets the value of a key, at the place that the order of the keys gives it. -/
def insert (key : String) (value : Json) : Fields → Fields
  | [] => [(key, value)]
  | (k, v) :: rest =>
    if k == key then (key, value) :: rest
    else if key < k then (key, value) :: (k, v) :: rest
    else (k, v) :: insert key value rest

/-- Sets the value of a key that is not present yet. -/
def insertIfAbsent (key : String) (value : Json) (fields : Fields) : Fields :=
  if fields.hasKey key then fields else fields.insert key value

def erase (key : String) (fields : Fields) : Fields := fields.filter fun f => f.1 != key

/-- Sorts fields by key; of several with one key the last stays. -/
def ofList (entries : List (String × Json)) : Fields :=
  entries.foldl (fun fields e => Fields.insert e.1 e.2 fields) []

end Fields

namespace Json

/-! ## Reading -/

/-- The fields of an object. -/
def fields? : Json → Option Fields
  | object fields => some fields
  | _ => none

def items? : Json → Option (List Json)
  | array items => some items
  | _ => none

def string? : Json → Option String
  | string s => some s
  | _ => none

/-- The value of a key of an object. -/
def get? (key : String) : Json → Option Json
  | object fields => Fields.get? key fields
  | _ => none

/-- The text under a key of an object. -/
def getString? (key : String) (value : Json) : Option String := (value.get? key).bind string?

def isObject : Json → Bool
  | object _ => true
  | _ => false

def isNull : Json → Bool
  | null => true
  | _ => false

/-! ## Building -/

def ofNat (n : Nat) : Json := number (.int n)

def ofInt (n : Int) : Json := number (.int n)

/-- An object with the fields sorted. -/
def objectOf (entries : List (String × Json)) : Json := object (Fields.ofList entries)

def strings (texts : List String) : Json := array (texts.map string)

/-- The value, or null when there is none. -/
def orNull : Option Json → Json
  | some value => value
  | none => null

/-! ## Equality -/

mutual

/-- Equality of values as written: an integer differs from a float. -/
def same : Json → Json → Bool
  | null, null => true
  | bool a, bool b => a == b
  | number a, number b => a.same b
  | string a, string b => a == b
  | array a, array b => sameItems a b
  | object a, object b => sameFields a b
  | _, _ => false

def sameItems : List Json → List Json → Bool
  | [], [] => true
  | a :: as, b :: bs => same a b && sameItems as bs
  | _, _ => false

def sameFields : Fields → Fields → Bool
  | [], [] => true
  | (k, a) :: as, (l, b) :: bs => k == l && same a b && sameFields as bs
  | _, _ => false

end

/-- Whether a value is among the items of a list. -/
def isAmong (value : Json) (items : List Json) : Bool := items.any fun item => item.same value

end Json

end ApiContract
