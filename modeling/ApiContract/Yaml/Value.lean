import ApiContract.Json.Basic
import ApiContract.Number.Layout
import ApiContract.Number.Literal
import ApiContract.Text.Quoted

/-!
# Values

What a YAML document says: values with keys of any kind and with tags. JSON knows neither, so keys are
written as texts and tags are dropped; a key that is not a scalar cannot be written.

* `Value`: the values, with `Value.same`, their equality.
* `keyText?`: the text of a key.
* `Value.describe`: a value as messages show it.
* `Value.toJson`: the JSON value of a value, or the key that has no text.
-/

namespace ApiContract.Yaml

/-- A value. The entries of a mapping stand in the order of the text. -/
inductive Value where
  | null
  | bool (b : Bool)
  | integer (n : Int)
  | float (x : Binary64)
  | infinite (negative : Bool)
  | notANumber
  | string (s : String)
  | sequence (items : List Value)
  | mapping (entries : List (Value × Value))
  | tagged (tag : String) (value : Value)
deriving Repr, Inhabited

namespace Value

/-! ## Equality -/

/-- Whether two floats are equal; zeros of both signs are. -/
def sameFloat (a b : Binary64) : Bool := a == b || (a.isZero && b.isZero)

mutual

/-- Whether two values are equal. The order of a mapping does not count. -/
def same : Value → Value → Bool
  | null, null => true
  | bool a, bool b => a == b
  | integer a, integer b => a == b
  | float a, float b => sameFloat a b
  | infinite a, infinite b => a == b
  | notANumber, notANumber => true
  | string a, string b => a == b
  | sequence a, sequence b => sameItems a b
  | mapping a, mapping b => a.length == b.length && holdsEntries b a
  | tagged t a, tagged u b => t == u && same a b
  | _, _ => false

def sameItems : List Value → List Value → Bool
  | [], [] => true
  | a :: as, b :: bs => same a b && sameItems as bs
  | _, _ => false

/-- Whether every entry of a mapping, given last, is an entry of another one. -/
def holdsEntries (other : List (Value × Value)) : List (Value × Value) → Bool
  | [] => true
  | (k, v) :: rest =>
    (other.any fun entry => same k entry.1 && same v entry.2) && holdsEntries other rest

end

/-! ## Keys -/

/-- The text of a number. -/
def numberText? : Value → Option String
  | integer n => some (integerText n)
  | float x => some (Layout.plainExponent.render x)
  | infinite negative => some (if negative then "-.inf" else ".inf")
  | notANumber => some ".nan"
  | _ => none

/-- The text of a key. -/
def keyText? : Value → Option String
  | string s => some s
  | bool b => some (if b then "true" else "false")
  | other => other.numberText?

/-! ## Messages -/

mutual

/-- A value as messages show it. -/
def describe : Value → String
  | null => "Null"
  | bool b => "Bool(" ++ (if b then "true" else "false") ++ ")"
  | integer n => "Number(" ++ integerText n ++ ")"
  | float x => "Number(" ++ Layout.plainExponent.render x ++ ")"
  | infinite negative => "Number(" ++ (if negative then "-.inf" else ".inf") ++ ")"
  | notANumber => "Number(.nan)"
  | string s => "String(" ++ quoted s ++ ")"
  | sequence items => "Sequence [" ++ joinWith ", " (describeItems items) ++ "]"
  | mapping entries => "Mapping \x7b" ++ joinWith ", " (describeEntries entries) ++ "\x7d"
  | tagged tag value => "TaggedValue \x7b tag: " ++ tag ++ ", value: " ++ describe value ++ " \x7d"

def describeItems : List Value → List String
  | [] => []
  | item :: rest => describe item :: describeItems rest

def describeEntries : List (Value × Value) → List String
  | [] => []
  | (key, value) :: rest =>
    (describeKey key ++ ": " ++ describe value) :: describeEntries rest

/-- A key as messages show it: scalars without the name of their kind. -/
def describeKey : Value → String
  | string s => quoted s
  | bool b => if b then "true" else "false"
  | integer n => integerText n
  | float x => Layout.plainExponent.render x
  | infinite negative => if negative then "-.inf" else ".inf"
  | notANumber => ".nan"
  | null => "Null"
  | sequence items => "Sequence [" ++ joinWith ", " (describeItems items) ++ "]"
  | mapping entries => "Mapping \x7b" ++ joinWith ", " (describeEntries entries) ++ "\x7d"
  | tagged tag value => "TaggedValue \x7b tag: " ++ tag ++ ", value: " ++ describe value ++ " \x7d"

end

/-! ## Text keys -/

/-- Sets the value of a text key among entries whose keys are texts; a key that is there keeps its
place. -/
def setEntry (key : String) (value : Value) : List (Value × Value) → List (Value × Value)
  | [] => [(string key, value)]
  | (k, v) :: rest =>
    if k.keyText? = some key then (k, value) :: rest else (k, v) :: setEntry key value rest

mutual

/-- A value with texts for keys and without tags, or the first key that has no text. -/
def withTextKeys : Value → Except Value Value
  | sequence items => (withTextKeysOfItems items).map sequence
  | mapping entries => (withTextKeysOfEntries [] entries).map mapping
  | tagged _ value => withTextKeys value
  | other => .ok other

def withTextKeysOfItems : List Value → Except Value (List Value)
  | [] => .ok []
  | item :: rest =>
    match withTextKeys item with
    | .error key => .error key
    | .ok first => (withTextKeysOfItems rest).map (first :: ·)

/-- Adds entries to those already done. -/
def withTextKeysOfEntries (done : List (Value × Value)) :
    List (Value × Value) → Except Value (List (Value × Value))
  | [] => .ok done
  | (key, value) :: rest =>
    match key.keyText? with
    | none => .error key
    | some text =>
      match withTextKeys value with
      | .error inner => .error inner
      | .ok kept => withTextKeysOfEntries (setEntry text kept done) rest

end

/-! ## JSON -/

mutual

/-- The JSON value of a value with text keys; a number that is not finite is null, and an entry whose
key has no text is left out. -/
def toJson : Value → Json
  | null => .null
  | bool b => .bool b
  | integer n => .number (.int n)
  | float x => .number (.float x)
  | infinite _ => .null
  | notANumber => .null
  | string s => .string s
  | sequence items => .array (toJsonItems items)
  | mapping entries => .object (toJsonFields entries)
  | tagged _ value => toJson value

def toJsonItems : List Value → List Json
  | [] => []
  | item :: rest => toJson item :: toJsonItems rest

def toJsonFields : List (Value × Value) → Fields
  | [] => []
  | (key, value) :: rest =>
    match key.keyText? with
    | some text => (toJsonFields rest).insertIfAbsent text (toJson value)
    | none => toJsonFields rest

end

/-- The JSON value of a value, or the first key that has no text. -/
def toJson? (value : Value) : Except Value Json := value.withTextKeys.map toJson

end Value

end ApiContract.Yaml
