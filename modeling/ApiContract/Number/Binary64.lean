/-!
# Finite binary64 numbers

The numbers `± significand · 2 ^ exponent` that a 64-bit float can hold, kept in their one normal
form: the significand is below `2 ^ 53`, and it is at least `2 ^ 52` unless the exponent is the
least one.

* `ofRatio?`: the nearest such number to a ratio of naturals, a tie going to the even significand;
  none when the ratio rounds beyond the largest finite number.
* `mul?`, `div?`, `sub?`: the exact result, rounded once by `ofRatio?`.
* `fraction`: the exact value as a numerator over a positive denominator.
* `bits`: the 64-bit interchange form.
-/

namespace ApiContract

/-- A finite float `± significand · 2 ^ exponent`. -/
structure Binary64 where
  negative : Bool
  significand : Nat
  exponent : Int
deriving DecidableEq, Repr, Inhabited

namespace Binary64

/-- The exponent of the smallest positive float. -/
def leastExponent : Int := -1074

/-- The exponent of the largest float. -/
def greatestExponent : Int := 971

def zero (negative : Bool) : Binary64 := ⟨negative, 0, leastExponent⟩

/-! ## Rounding -/

/-- The integer nearest to `num / den`; a half goes to the even neighbour. -/
def roundDiv (num den : Nat) : Nat :=
  let q := num / den
  let twice := 2 * (num % den)
  if twice < den then q
  else if den < twice then q + 1
  else if q % 2 = 0 then q else q + 1

/-- The ratio `num / den` divided by `2 ^ e`, again as a ratio. -/
def scaleDown (num den : Nat) (e : Int) : Nat × Nat :=
  if 0 ≤ e then (num, den * Nat.pow 2 e.toNat) else (num * Nat.pow 2 (-e).toNat, den)

/-- The exponent at which `num / den` has a significand of 53 bits, or the least exponent if that
one is larger. -/
def exponentOf (num den : Nat) : Int :=
  let guess : Int := (num.log2 : Int) - (den.log2 : Int) - 52
  let scaled := scaleDown num den guess
  let exact := if scaled.1 < scaled.2 * Nat.pow 2 52 then guess - 1 else guess
  max exact leastExponent

/-- The float nearest to `± num / den`. -/
def ofRatio? (negative : Bool) (num den : Nat) : Option Binary64 :=
  if num = 0 then some (zero negative)
  else
    let e := exponentOf num den
    let scaled := scaleDown num den e
    let m := roundDiv scaled.1 scaled.2
    let carried : Nat × Int := if m = Nat.pow 2 53 then (Nat.pow 2 52, e + 1) else (m, e)
    if greatestExponent < carried.2 then none else some ⟨negative, carried.1, carried.2⟩

/-- The float nearest to a natural number below `2 ^ 1023`. -/
def ofNat (n : Nat) : Binary64 := (ofRatio? false n 1).getD (zero false)

/-- The float nearest to an integer of magnitude below `2 ^ 1023`. -/
def ofInt (n : Int) : Binary64 := (ofRatio? (decide (n < 0)) n.natAbs 1).getD (zero false)

/-! ## Exact values -/

/-- The magnitude as a ratio. -/
def magnitude (x : Binary64) : Nat × Nat :=
  if 0 ≤ x.exponent then (x.significand * Nat.pow 2 x.exponent.toNat, 1)
  else (x.significand, Nat.pow 2 (-x.exponent).toNat)

/-- The value as a signed numerator over a positive denominator. -/
def fraction (x : Binary64) : Int × Nat :=
  let m := x.magnitude
  (if x.negative then -(m.1 : Int) else m.1, m.2)

def isZero (x : Binary64) : Bool := x.significand == 0

/-- Whether the value is an integer. -/
def isIntegral (x : Binary64) : Bool :=
  let f := x.fraction
  f.1 % (f.2 : Int) == 0

/-- The greatest integer not above the value. -/
def floor (x : Binary64) : Int :=
  let f := x.fraction
  Int.fdiv f.1 f.2

/-- The integer part, the fraction being dropped toward zero. -/
def truncate (x : Binary64) : Int :=
  let f := x.fraction
  Int.tdiv f.1 f.2

/-! ## Arithmetic -/

def neg (x : Binary64) : Binary64 := { x with negative := !x.negative }

def mul? (x y : Binary64) : Option Binary64 :=
  let a := x.magnitude
  let b := y.magnitude
  ofRatio? (x.negative != y.negative) (a.1 * b.1) (a.2 * b.2)

/-- The quotient by a number other than zero. -/
def div? (x y : Binary64) : Option Binary64 :=
  let a := x.magnitude
  let b := y.magnitude
  ofRatio? (x.negative != y.negative) (a.1 * b.2) (a.2 * b.1)

def sub? (x y : Binary64) : Option Binary64 :=
  let a := x.fraction
  let b := y.fraction
  let num := a.1 * b.2 - b.1 * a.2
  ofRatio? (decide (num < 0)) num.natAbs (a.2 * b.2)

/-! ## Interchange form -/

/-- The sign bit, eleven bits of biased exponent and fifty-two bits of significand. -/
def bits (x : Binary64) : Nat :=
  let sign := if x.negative then Nat.pow 2 63 else 0
  if x.significand < Nat.pow 2 52 then sign + x.significand
  else sign + (x.exponent + 1075).toNat * Nat.pow 2 52 + (x.significand - Nat.pow 2 52)

end Binary64

end ApiContract
