import ApiContract.Json.Basic

/-!
# Pointers into a document

A local reference is `#` followed by a pointer: steps from the root, each behind a slash. In a step
`~1` stands for a slash and `~0` for a tilde.

* `escapeStep`, `unescapeStep`: a key as a step, and back.
* `pointerSteps?`: the steps of a local reference.
* `Json.follow?`: the value that steps lead to; `Json.resolve?`: the value of a local reference.
-/

namespace ApiContract

/-! ## Steps -/

/-- The characters of a key in a step. -/
def escapeStepChars : List Char → List Char
  | [] => []
  | '~' :: rest => '~' :: '0' :: escapeStepChars rest
  | '/' :: rest => '~' :: '1' :: escapeStepChars rest
  | c :: rest => c :: escapeStepChars rest

/-- The characters of the key that a step stands for. -/
def unescapeStepChars : List Char → List Char
  | [] => []
  | '~' :: '0' :: rest => '~' :: unescapeStepChars rest
  | '~' :: '1' :: rest => '/' :: unescapeStepChars rest
  | c :: rest => c :: unescapeStepChars rest

/-- A key as a step. -/
def escapeStep (key : String) : String := String.ofList (escapeStepChars key.toList)

/-- The key that a step stands for. -/
def unescapeStep (step : String) : String := String.ofList (unescapeStepChars step.toList)

/-- The texts between the slashes of a text. -/
def splitSlashes (text : String) : List String :=
  (text.toList.splitOn '/').map String.ofList

/-- The keys along a local reference; none for a reference that is not local. -/
def pointerSteps? (reference : String) : Option (List String) :=
  match reference.toList with
  | ['#'] => some []
  | '#' :: '/' :: rest => some ((splitSlashes (String.ofList rest)).map unescapeStep)
  | _ => none

/-- A place in an array, as it is written in a step: a number below `2 ^ 64`. -/
def indexOfStep? (step : String) : Option Nat :=
  (unsigned? 10 step.toList).bind fun i => if i < Nat.pow 2 64 then some i else none

namespace Json

/-! ## Following -/

/-- The part of a value that one step leads to. -/
def child? (value : Json) (step : String) : Option Json :=
  match value with
  | object fields => Fields.get? step fields
  | array items => (indexOfStep? step).bind fun i => items[i]?
  | _ => none

/-- The part of a value that steps lead to. -/
def follow? (value : Json) : List String → Option Json
  | [] => some value
  | step :: rest => (value.child? step).bind fun part => follow? part rest

/-- The value of a local reference in a document. -/
def resolve? (document : Json) (reference : String) : Option Json :=
  (pointerSteps? reference).bind document.follow?

end Json

end ApiContract
