import ApiContract.Number.Shortest

/-!
# Written forms of floats

A written form is fixed by a few decisions, held in one record; `Layout.render` writes the shortest
digits of a float by such a record.

* `Layout.json`: positional from `1e-5` to below `1e16`, a point always written, `e+16` above.
* `Layout.plainExponent`: the same with `e16`.
* `Layout.positional`: never an exponent, and no point after an integer; `Layout.pointed`: never an
  exponent, and always a point.
-/

namespace ApiContract

/-- The decisions of one written form of floats. -/
structure Layout where
  /-- Whether a number is written without an exponent, from the place of its decimal point: the
  number of digits before the point, or minus the number of zeros after it. -/
  isPositional : Int → Bool
  /-- Whether an exponent that is not negative gets a plus sign. -/
  plusSign : Bool
  /-- Whether an integer written positionally ends in `.0`. -/
  pointZero : Bool

namespace Layout

/-- Positional when at most four zeros follow the point before the first digit, and at most sixteen
digits stand before the point. -/
def shortRange (point : Int) : Bool := decide (-5 < point) && decide (point ≤ 16)

def json : Layout := ⟨shortRange, true, true⟩

def plainExponent : Layout := ⟨shortRange, false, true⟩

def positional : Layout := ⟨fun _ => true, false, false⟩

def pointed : Layout := ⟨fun _ => true, false, true⟩

/-- The digits with the point at `point`, zeros filling the gap on either side. -/
def placePoint (digits : List Char) (point : Int) (pointZero : Bool) : List Char :=
  if point ≤ 0 then
    '0' :: '.' :: (List.replicate (-point).toNat '0' ++ digits)
  else
    let n := point.toNat
    if digits.length ≤ n then
      digits ++ List.replicate (n - digits.length) '0' ++ (if pointZero then ['.', '0'] else [])
    else digits.take n ++ '.' :: digits.drop n

/-- One digit before the point, the others after it, and the exponent of the first digit. -/
def scientific (digits : List Char) (exponent : Int) (plusSign : Bool) : List Char :=
  let mantissa := match digits with
    | [] => []
    | [d] => [d]
    | d :: rest => d :: '.' :: rest
  let sign := if exponent < 0 then ['-'] else if plusSign then ['+'] else []
  mantissa ++ 'e' :: (sign ++ Nat.toDigits 10 exponent.natAbs)

/-- The text of a float. -/
def render (layout : Layout) (x : Binary64) : String :=
  let sign := if x.negative then ['-'] else []
  if x.isZero then String.ofList (sign ++ '0' :: (if layout.pointZero then ['.', '0'] else []))
  else
    let short := x.shortest
    let digits := Nat.toDigits 10 short.1
    let point : Int := (digits.length : Int) + short.2
    let body :=
      if layout.isPositional point then placePoint digits point layout.pointZero
      else scientific digits (point - 1) layout.plusSign
    String.ofList (sign ++ body)

end Layout

end ApiContract
