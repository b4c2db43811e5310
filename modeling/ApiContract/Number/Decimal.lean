import ApiContract.Number.Binary64

/-!
# Decimal literals

A decimal numeral `digits · 10 ^ exponent` and the floats it stands for.

* `Binary64.ofDecimal?`: the float nearest to a decimal numeral, rounded once.
* `Binary64.ofDecimalSteps?`: the float of a numeral whose digits and power of ten are rounded
  separately and then multiplied or divided; the last bit may differ from `ofDecimal?`.
* `digitsValue`: the number that a list of digit characters writes in a base.
-/

namespace ApiContract

/-! ## Digits -/

/-- The value of a digit character in bases up to thirty-six; letters count from ten in either case. -/
def digitValue? (c : Char) : Option Nat :=
  if '0' ≤ c ∧ c ≤ '9' then some (c.toNat - '0'.toNat)
  else if 'a' ≤ c ∧ c ≤ 'z' then some (c.toNat - 'a'.toNat + 10)
  else if 'A' ≤ c ∧ c ≤ 'Z' then some (c.toNat - 'A'.toNat + 10)
  else none

/-- Whether a character is one of the ten ASCII digits. -/
def isDigit (c : Char) : Bool := '0' ≤ c && c ≤ '9'

/-- The number written by digits in a base, continuing from the number read so far. -/
def digitsValue? (base : Nat) (read : Nat) : List Char → Option Nat
  | [] => some read
  | c :: rest =>
    match digitValue? c with
    | some d => if d < base then digitsValue? base (read * base + d) rest else none
    | none => none

/-- The number written by one or more digits in a base, after an optional plus sign. -/
def unsigned? (base : Nat) (text : List Char) : Option Nat :=
  let digits := match text with
    | '+' :: rest => rest
    | other => other
  if digits.isEmpty then none else digitsValue? base 0 digits

/-- The number that decimal digits write; other characters count as zero. -/
def decimalValue (digits : List Char) : Nat :=
  digits.foldl (fun n c => n * 10 + (c.toNat - '0'.toNat)) 0

/-- How many decimal digits a natural number has; zero has none. -/
def decimalLength (n : Nat) : Nat :=
  if n = 0 then 0 else (Nat.toDigits 10 n).length

namespace Binary64

/-! ## Floats of decimal numerals -/

/-- The float nearest to `± digits · 10 ^ exponent`; none when it rounds beyond the largest one.
Magnitudes far outside the range are settled by the count of digits alone. -/
def ofDecimal? (negative : Bool) (digits : Nat) (exponent : Int) : Option Binary64 :=
  let point : Int := (decimalLength digits : Int) + exponent
  if digits = 0 then some (zero negative)
  else if 400 < point then none
  else if point < -400 then some (zero negative)
  else if 0 ≤ exponent then ofRatio? negative (digits * Nat.pow 10 exponent.toNat) 1
  else ofRatio? negative digits (Nat.pow 10 (-exponent).toNat)

/-- The float nearest to `10 ^ k`, for `k` up to 308. -/
def powerOfTen (k : Nat) : Binary64 := ofNat (Nat.pow 10 k)

/-- Divides by the largest power of ten a given number of times, or until zero is reached. -/
def divLargest? : Nat → Binary64 → Option Binary64
  | 0, x => some x
  | n + 1, x => if x.isZero then some x else (x.div? (powerOfTen 308)).bind (divLargest? n)

/-- Divides by `10 ^ k`, in steps of `10 ^ 308` as long as `k` is larger than that. -/
def divPowerOfTen? (x : Binary64) (k : Nat) : Option Binary64 :=
  let steps := (k - 1) / 308
  (divLargest? steps x).bind fun y => y.div? (powerOfTen (if y.isZero then 0 else k - 308 * steps))

/-- The float nearest to `digits`, multiplied or divided by the float nearest to the power of ten,
each step rounded; none when it leaves the finite range. -/
def ofDecimalSteps? (negative : Bool) (digits : Nat) (exponent : Int) : Option Binary64 :=
  let start := ofNat digits
  let scaled :=
    if 0 ≤ exponent then
      if exponent ≤ 308 then start.mul? (powerOfTen exponent.toNat)
      else if start.isZero then some start else none
    else start.divPowerOfTen? (-exponent).toNat
  scaled.map fun x => { x with negative := negative }

end Binary64

end ApiContract
