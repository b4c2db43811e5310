import ApiContract.Json.Basic
import ApiContract.Text.Quoted

/-!
# Decoding values

How typed definitions are read from JSON values. Reading stops at the first failure; `DecodeError` is
its cause and `DecodeError.message` its wording.

* `decodeText`, `decodeFlag`, `decodeList`, `decodeTable`, `decodeOptional`: the plain shapes.
* `Field`, `decodeRecord`: a record, given as an object or as the list of its fields in order.
-/

namespace ApiContract

/-! ## Failures -/

/-- Why a value does not have the expected shape. -/
inductive DecodeError where
  /-- A value of another kind than expected. -/
  | wrongKind (found : Json) (expected : String)
  /-- A value of the right kind that is not allowed. -/
  | wrongValue (found : Json) (expected : String)
  /-- A list with too few or too many items. -/
  | wrongLength (length : Nat) (expected : String)
  /-- A record without one of its fields. -/
  | missingField (name : String)
  /-- A value that fits none of several shapes. -/
  | noVariant (type : String)
  /-- A text that is none of the allowed words. -/
  | unknownWord (message : String)
deriving Repr

/-- What a value is called in a message. -/
def describe : Json → String
  | .null => "null"
  | .bool true => "boolean `true`"
  | .bool false => "boolean `false`"
  | .number (.int n) => "integer " ++ backquoted (integerText n)
  | .number (.float x) => "floating point " ++ backquoted (Layout.pointed.render x)
  | .string s => "string " ++ quoted s
  | .array _ => "sequence"
  | .object _ => "map"

def DecodeError.message : DecodeError → String
  | wrongKind found expected => "invalid type: " ++ describe found ++ ", expected " ++ expected
  | wrongValue found expected => "invalid value: " ++ describe found ++ ", expected " ++ expected
  | wrongLength length expected =>
    "invalid length " ++ naturalText length ++ ", expected " ++ expected
  | missingField name => "missing field " ++ backquoted name
  | noVariant type => "data did not match any variant of untagged enum " ++ type
  | unknownWord message => message

/-- The outcome of reading a value. -/
abbrev Decoded (α : Type) := Except DecodeError α

/-! ## Plain shapes -/

def decodeText : Json → Decoded String
  | .string s => .ok s
  | other => .error (.wrongKind other "a string")

def decodeFlag : Json → Decoded Bool
  | .bool b => .ok b
  | other => .error (.wrongKind other "a boolean")

/-- A natural number of at most sixteen bits. -/
def decodeShortNatural : Json → Decoded Nat
  | .number (.int n) =>
    if 0 ≤ n ∧ n < 65536 then .ok n.toNat
    else .error (.wrongValue (.number (.int n)) "u16")
  | other => .error (.wrongKind other "u16")

/-- Any value, as it is. -/
def decodeAny (value : Json) : Decoded Json := .ok value

/-- Null means nothing. -/
def decodeOptional {α : Type} (decode : Json → Decoded α) : Json → Decoded (Option α)
  | .null => .ok none
  | other => (decode other).map some

/-- The items of a list, each read by `decode`. -/
def decodeItems {α : Type} (decode : Json → Decoded α) : List Json → Decoded (List α)
  | [] => .ok []
  | item :: rest =>
    match decode item with
    | .error e => .error e
    | .ok value => (decodeItems decode rest).map (value :: ·)

def decodeList {α : Type} (decode : Json → Decoded α) : Json → Decoded (List α)
  | .array items => decodeItems decode items
  | other => .error (.wrongKind other "a sequence")

/-- The fields of an object, each value read by `decode`. -/
def decodeEntries {α : Type} (decode : Json → Decoded α) : Fields → Decoded (List (String × α))
  | [] => .ok []
  | (key, item) :: rest =>
    match decode item with
    | .error e => .error e
    | .ok value => (decodeEntries decode rest).map ((key, value) :: ·)

def decodeTable {α : Type} (decode : Json → Decoded α) : Json → Decoded (List (String × α))
  | .object fields => decodeEntries decode fields
  | other => .error (.wrongKind other "a map")

/-! ## Records -/

/-- A field of a record: its name, whether it must be given, and how its value goes into the
record. -/
structure Field (σ : Type) where
  name : String
  required : Bool
  store : Json → σ → Decoded σ

/-- A field that must be given. -/
def Field.needed {σ α : Type} (name : String) (decode : Json → Decoded α) (set : α → σ → σ) :
    Field σ :=
  ⟨name, true, fun value record => (decode value).map fun x => set x record⟩

/-- A field that keeps its default when it is left out. -/
def Field.defaulted {σ α : Type} (name : String) (decode : Json → Decoded α) (set : α → σ → σ) :
    Field σ :=
  ⟨name, false, fun value record => (decode value).map fun x => set x record⟩

section

variable {σ : Type} (fields : List (Field σ))

/-- Stores the named values in their order; names that are no field are passed over. -/
def decodeNamed (record : σ) : Fields → Decoded σ
  | [] => .ok record
  | (key, value) :: rest =>
    match fields.find? (·.name == key) with
    | none => decodeNamed record rest
    | some field =>
      match field.store value record with
      | .error e => .error e
      | .ok next => decodeNamed next rest

/-- The first field that must be given and is not. -/
def firstMissing? (given : Fields) : Option (Field σ) :=
  fields.find? fun field => field.required && !given.hasKey field.name

/-- Stores values in the order of the fields. `place` counts the values stored, `total` the values
given, and `expected` describes a complete list. -/
def decodePositional (expected : String) (total : Nat) :
    List (Field σ) → Nat → σ → List Json → Decoded σ
  | [], _, record, [] => .ok record
  | [], _, _, _ :: _ => .error (.wrongLength total "fewer elements in array")
  | field :: rest, place, record, [] =>
    if field.required then .error (.wrongLength place expected)
    else decodePositional expected total rest place record []
  | field :: rest, place, record, value :: values =>
    match field.store value record with
    | .error e => .error e
    | .ok next => decodePositional expected total rest (place + 1) next values

/-- A record of a type, from an object or from a list; `start` holds the defaults. -/
def decodeRecord (type : String) (start : σ) : Json → Decoded σ
  | .object given =>
    match decodeNamed fields start given with
    | .error e => .error e
    | .ok record =>
      match firstMissing? fields given with
      | some field => .error (.missingField field.name)
      | none => .ok record
  | .array items =>
    let expected := "struct " ++ type ++ " with " ++ naturalText fields.length ++ " elements"
    decodePositional expected items.length fields 0 start items
  | other => .error (.wrongKind other ("struct " ++ type))

end

end ApiContract
