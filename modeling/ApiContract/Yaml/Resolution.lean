import ApiContract.Yaml.Node
import ApiContract.Yaml.Value

/-!
# Resolution

What nodes mean. A plain scalar is read as null, a flag, a number or else a text; quotes make it a text.
A tag of the language itself says which of these a scalar has to be; other tags stay with the value.

* `resolvePlain`: the value of a plain scalar.
* `Node.resolve`: the value of a node.
* `valueOf`: the value of a text.
-/

namespace ApiContract.Yaml

/-! ## Words -/

def nullWords : List String := ["null", "Null", "NULL", "~"]

/-- The flag that a word stands for. -/
def flagOf? (text : String) : Option Bool :=
  if ["true", "True", "TRUE"].contains text then some true
  else if ["false", "False", "FALSE"].contains text then some false
  else none

/-! ## Numbers -/

/-- Whether a text is digits only, more than one and with a zero first, after an optional sign. Such a
text is no number. -/
def isZeroPadded (text : List Char) : Bool :=
  let digits := (splitSign text).2
  digits.all isDigit && decide (1 < digits.length) && digits.head? == some '0'

/-- A number of one or more digits of a base, without a sign. -/
def digits? (base : Nat) (text : List Char) : Option Nat :=
  if text.isEmpty then none else digitsValue? base 0 text

/-- A natural number as it is written without a sign: decimal, or in the base that its start
announces. -/
def natural? (text : List Char) : Option Nat :=
  match text with
  | '0' :: 'x' :: rest => digits? 16 rest
  | '0' :: 'o' :: rest => digits? 8 rest
  | '0' :: 'b' :: rest => digits? 2 rest
  | _ => if isZeroPadded text then none else digits? 10 text

/-- The integer that a text stands for. -/
def integer? (text : List Char) : Option Int :=
  match text with
  | '-' :: rest => (natural? rest).map fun n => -(n : Int)
  | '+' :: rest => (natural? rest).map fun n => (n : Int)
  | _ => (natural? text).map fun n => (n : Int)

/-- The float that a text stands for; a finite one has to stay finite. -/
def float? (text : List Char) : Option Value :=
  let unsigned := match text with
    | '+' :: rest => rest
    | _ => text
  if text.head? = some '+' && (unsigned.head? = some '+' || unsigned.head? = some '-') then none
  else
    let word := String.ofList unsigned
    if [".inf", ".Inf", ".INF"].contains word then some (.infinite false)
    else if ["-.inf", "-.Inf", "-.INF"].contains word then some (.infinite true)
    else if [".nan", ".NaN", ".NAN"].contains (String.ofList text) then some .notANumber
    else
      match decimalLiteral? unsigned with
      | some (.finite x) => some (.float x)
      | _ => none

/-- The value of an integer: it has to fit into 64 bits, unless it does not fit into 128 bits either
and so is a float. -/
def integerValue? (n : Int) : Option (Outcome Value) :=
  if -(Int.pow 2 63) ≤ n ∧ n < Int.pow 2 64 then some (.ok (.integer n))
  else if -(Int.pow 2 127) ≤ n ∧ n < Int.pow 2 128 then some (.error "an integer of more than 64 bits")
  else none

/-! ## Scalars -/

/-- The value of a plain scalar without a tag. -/
def resolvePlain (text : String) : Outcome Value :=
  let chars := text.toList
  if text.isEmpty || nullWords.contains text then .ok .null
  else
    match flagOf? text with
    | some b => .ok (.bool b)
    | none =>
      match (integer? chars).bind integerValue? with
      | some outcome => outcome
      | none =>
        if isZeroPadded chars then .ok (.string text)
        else .ok ((float? chars).getD (.string text))

/-- The beginning of the tags of the language itself. -/
def coreTag (name : String) : String := "tag:yaml.org,2002:" ++ name

/-- The value of a scalar. -/
def resolveScalar (tag : Option String) (isPlain : Bool) (text : String) : Outcome Value :=
  let written := if isPlain then resolvePlain text else .ok (.string text)
  match tag with
  | none => written
  | some name =>
    if name = coreTag "bool" then
      match flagOf? text with
      | some b => .ok (.bool b)
      | none => .error "a flag is expected"
    else if name = coreTag "int" then
      match (integer? text.toList).bind integerValue? with
      | some outcome => outcome
      | none => .error "an integer is expected"
    else if name = coreTag "float" then
      match float? text.toList with
      | some value => .ok value
      | none => .error "a float is expected"
    else if name = coreTag "null" then
      if nullWords.contains text then .ok .null else .error "null is expected"
    else if name.toList.head? = some '!' then written.map (Value.tagged name)
    else .ok (.string text)

/-! ## Nodes -/

/-- Whether a key is among those of entries. -/
def isKeyOf (key : Value) (entries : List (Value × Value)) : Bool :=
  entries.any fun entry => key.same entry.1

/-- A tag that stays with a value. -/
def keepTag (tag : Option String) (value : Value) : Value :=
  match tag with
  | some name => if name.toList.head? = some '!' then .tagged name value else value
  | none => value

/-- The node that an alias stands for; other nodes stand for themselves. -/
def targetOf? (targets : List (Nat × Node)) (node : Node) : Option Node :=
  match node with
  | .alias number => (targets.find? (·.1 == number)).map (·.2)
  | _ => some node

/-- Resolves keys and values one after the other; no key may occur twice. -/
def resolveEntries (resolve : Node → Outcome Value) (done : List (Value × Value)) :
    List (Node × Node) → Outcome (List (Value × Value))
  | [] => .ok done.reverse
  | (key, value) :: rest => do
    let k ← resolve key
    if isKeyOf k done then .error "a key occurs twice"
    else
      let v ← resolve value
      resolveEntries resolve ((k, v) :: done) rest

/-- Resolves items one after the other. -/
def resolveItems (resolve : Node → Outcome Value) : List Node → Outcome (List Value)
  | [] => .ok []
  | item :: rest => do
    let first ← resolve item
    let others ← resolveItems resolve rest
    .ok (first :: others)

/-- The value of a node. Collections may lie in each other up to a depth. -/
def resolveNode (targets : List (Nat × Node)) : Nat → Node → Outcome Value
  | depth, node =>
    match depth, targetOf? targets node with
    | _, none => .error "an alias without a node"
    | _, some (.alias _) => .error "an alias of an alias"
    | _, some (.scalar tag isPlain text) => resolveScalar tag isPlain text
    | 0, some _ => .error "too deep"
    | depth + 1, some (.sequence tag items) => do
      let values ← resolveItems (resolveNode targets depth) items
      .ok (keepTag tag (.sequence values))
    | depth + 1, some (.mapping tag entries) => do
      let values ← resolveEntries (resolveNode targets depth) [] entries
      .ok (keepTag tag (.mapping values))

/-- How deep collections may lie in each other. -/
def deepest : Nat := 128

/-- The value of the one document of a text; a text without a document is null. -/
def valueOf (text : String) : Outcome Value := do
  match ← documentOf text with
  | none => .ok .null
  | some document => resolveNode document.targets deepest document.root

/-- Reads a text as a JSON value; a failure is told in words. -/
def parse (text : String) : Outcome Json := do
  let value ← valueOf text
  match value.toJson? with
  | .ok json => .ok json
  | .error key => .error ("mapping key " ++ key.describe ++ " has no JSON form")

end ApiContract.Yaml
