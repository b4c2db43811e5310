import ApiContract.Json.Basic

/-!
# Native dates

A host that builds payloads from its own values writes a moment as an object of two numbers: the seconds
since the start of 1970 and the nanoseconds within the second. `NativeDate.convert` writes each of them
as a text like `2020-01-01T00:00:00.123Z`, which is what contracts declare.

* `Civil.ofDays`: the date of a day counted from the start of 1970.
* `NativeDate.render?`: the text of a moment, up to the end of the last year there is a date for. A
  second of more than a thousand milliseconds is a leap second, at the end of a minute only.
-/

namespace ApiContract

/-- A date. -/
structure Civil where
  year : Nat
  month : Nat
  day : Nat
deriving DecidableEq, Repr

namespace Civil

/-- Days from the first of March of the year 0 to the start of 1970. -/
def epochOffset : Nat := 719468

/-- The date of a day counted from the start of 1970. A year is taken to start in March, so that a leap
day is its last day; four centuries have 146097 days. -/
def ofDays (days : Nat) : Civil :=
  let shifted := days + epochOffset
  let cycle := shifted / 146097
  let inCycle := shifted % 146097
  let yearInCycle := (inCycle - inCycle / 1460 + inCycle / 36524 - inCycle / 146096) / 365
  let inYear := inCycle - (365 * yearInCycle + yearInCycle / 4 - yearInCycle / 100)
  let monthFromMarch := (5 * inYear + 2) / 153
  let day := inYear - (153 * monthFromMarch + 2) / 5 + 1
  let month := if monthFromMarch < 10 then monthFromMarch + 3 else monthFromMarch - 9
  let year := yearInCycle + 400 * cycle
  ⟨if month ≤ 2 then year + 1 else year, month, day⟩

end Civil

namespace NativeDate

/-- A number with zeros before it, so that it has a least number of digits. -/
def padded (width n : Nat) : String :=
  let digits := Nat.toDigits 10 n
  String.ofList (List.replicate (width - digits.length) '0' ++ digits)

/-- A year: four digits up to 9999, a plus sign and all digits above. -/
def yearText (year : Nat) : String :=
  if year ≤ 9999 then padded 4 year else "+" ++ naturalText year

/-- The last year with dates. -/
def lastYear : Nat := 262142

/-- The text of a moment. -/
def render? (seconds nanoseconds : Nat) : Option String :=
  let inDay := seconds % 86400
  let date := Civil.ofDays (seconds / 86400)
  let isLeap := 1000000000 ≤ nanoseconds
  if 2000000000 ≤ nanoseconds || (isLeap && seconds % 60 != 59) || lastYear < date.year then none
  else
    let second := inDay % 60 + nanoseconds / 1000000000
    let millisecond := nanoseconds % 1000000000 / 1000000
    some (yearText date.year ++ "-" ++ padded 2 date.month ++ "-" ++ padded 2 date.day ++ "T" ++
      padded 2 (inDay / 3600) ++ ":" ++ padded 2 (inDay / 60 % 60) ++ ":" ++ padded 2 second ++
      "." ++ padded 3 millisecond ++ "Z")

/-- A number that is an integer below a limit. -/
def natural? (limit : Nat) : Json → Option Nat
  | .number (.int n) => if 0 ≤ n ∧ n < limit then some n.toNat else none
  | _ => none

/-- The text of an object that holds a moment and nothing else. -/
def ofFields? (fields : Fields) : Option String :=
  if fields.length ≠ 2 then none
  else
    match fields.get? "secs_since_epoch", fields.get? "nanos_since_epoch" with
    | some seconds, some nanoseconds =>
      match natural? (Nat.pow 2 63) seconds, natural? (Nat.pow 2 32) nanoseconds with
      | some s, some n => render? s n
      | _, _ => none
    | _, _ => none

mutual

/-- A value with every native date in it written as a text. -/
def convert : Json → Json
  | .object fields =>
    match ofFields? fields with
    | some text => .string text
    | none => .object (convertFields fields)
  | .array items => .array (convertItems items)
  | other => other

def convertItems : List Json → List Json
  | [] => []
  | item :: rest => convert item :: convertItems rest

def convertFields : Fields → Fields
  | [] => []
  | (key, value) :: rest => (key, convert value) :: convertFields rest

end

end NativeDate

end ApiContract
