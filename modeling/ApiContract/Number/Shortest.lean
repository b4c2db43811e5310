import ApiContract.Number.Decimal

/-!
# Shortest digits of a float

The decimal numeral with the fewest digits that reads back as a given float, and of those the one
nearest to it.

* `Reach`: the reals that round to a float, as an interval between two ratios.
* `shortest`: digits and a power of ten, found by testing the two neighbours of the float on the
  grid of one digit, of two digits, and so on.
* `decimalFraction`: the value of this numeral, which need not be that of the float.
-/

namespace ApiContract

namespace Binary64

/-- The reals that round to a positive float, between `low / den` and `high / den`; the ends belong
to it when `closed` holds. -/
structure Reach where
  low : Nat
  value : Nat
  high : Nat
  den : Nat
  closed : Bool
deriving Repr

/-- The interval of a positive float. Its lower half is shorter where the significand is the least
of its binade. -/
def reach (x : Binary64) : Reach :=
  let m := x.significand
  let narrow : Bool := decide (m = Nat.pow 2 52) && decide (leastExponent < x.exponent)
  let low := if narrow then 4 * m - 1 else 4 * m - 2
  let e := x.exponent - 2
  let closed := m % 2 == 0
  let scale := Nat.pow 2 e.natAbs
  if 0 ≤ e then ⟨low * scale, 4 * m * scale, (4 * m + 2) * scale, 1, closed⟩
  else ⟨low, 4 * m, 4 * m + 2, scale, closed⟩

/-- Whether `digits · 10 ^ exponent` lies in the interval. -/
def Reach.holds (r : Reach) (digits : Nat) (exponent : Int) : Bool :=
  let up := if 0 ≤ exponent then digits * Nat.pow 10 exponent.toNat else digits
  let down := if 0 ≤ exponent then 1 else Nat.pow 10 (-exponent).toNat
  let here := up * r.den
  let low := r.low * down
  let high := r.high * down
  if r.closed then decide (low ≤ here) && decide (here ≤ high)
  else decide (low < here) && decide (here < high)

/-- The greatest multiple of `10 ^ exponent` not above the float, and whether the next one is
nearer. -/
def Reach.below (r : Reach) (exponent : Int) : Nat × Bool :=
  let num := if 0 ≤ exponent then r.value else r.value * Nat.pow 10 (-exponent).toNat
  let den := if 0 ≤ exponent then r.den * Nat.pow 10 exponent.toNat else r.den
  let q := num / den
  (q, decide (den < 2 * (num % den)))

/-- The candidate on the grid of `10 ^ exponent`, if one of the two neighbours reads back. -/
def Reach.onGrid (r : Reach) (exponent : Int) : Option Nat :=
  let b := r.below exponent
  let lower := decide (0 < b.1) && r.holds b.1 exponent
  let upper := r.holds (b.1 + 1) exponent
  match lower, upper with
  | true, true => some (if b.2 then b.1 + 1 else b.1)
  | true, false => some b.1
  | false, true => some (b.1 + 1)
  | false, false => none

/-- The first grid with a candidate, going from `exponent` downward. -/
def Reach.search (r : Reach) : Nat → Int → Nat × Int
  | 0, exponent => ((r.below exponent).1, exponent)
  | n + 1, exponent =>
    match r.onGrid exponent with
    | some digits => (digits, exponent)
    | none => r.search n (exponent - 1)

/-- The place of the decimal point: the least `k` with `num / den < 10 ^ k`, searched from a guess
that is at most one too small. -/
def pointPlace (num den : Nat) : Int :=
  let guess : Int := (decimalLength num : Int) - (decimalLength den : Int)
  let below : Bool :=
    if 0 ≤ guess then decide (num < den * Nat.pow 10 guess.toNat)
    else decide (num * Nat.pow 10 (-guess).toNat < den)
  if below then guess else guess + 1

/-- Drops trailing zeros, counting them into the exponent. -/
def stripZeros : Nat → Nat → Int → Nat × Int
  | 0, digits, exponent => (digits, exponent)
  | fuel + 1, digits, exponent =>
    if digits ≠ 0 ∧ digits % 10 = 0 then stripZeros fuel (digits / 10) (exponent + 1)
    else (digits, exponent)

/-- The shortest decimal numeral `digits · 10 ^ exponent` of the magnitude of a float; zero is
`0 · 10 ^ 0`. -/
def shortest (x : Binary64) : Nat × Int :=
  if x.isZero then (0, 0)
  else
    let r := x.reach
    let found := r.search 17 (pointPlace r.value r.den - 1)
    stripZeros 20 found.1 found.2

/-- The value of the shortest numeral, as a signed numerator over a positive denominator. -/
def decimalFraction (x : Binary64) : Int × Nat :=
  let numeral := x.shortest
  let num : Int := numeral.1 * Nat.pow 10 numeral.2.toNat
  (if x.negative then -num else num, Nat.pow 10 (-numeral.2).toNat)

end Binary64

end ApiContract
