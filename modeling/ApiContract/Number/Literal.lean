import ApiContract.Number.Decimal
import ApiContract.Text.Blank

/-!
# Numeric texts

`numericText?` reads a text as a number the way that scripts convert texts to numbers: blanks around it
do not count, nothing at all is zero, and integers may be written in base sixteen, eight or two.

* `decimalLiteral?`: an optional sign, digits with an optional point, an optional exponent.
* `Extended`: a finite float or one of the two infinities.
-/

namespace ApiContract

/-- A float that may be infinite. -/
inductive Extended where
  | finite (x : Binary64)
  | infinite (negative : Bool)
deriving DecidableEq, Repr

/-- The 64-bit interchange form. -/
def Extended.bits : Extended → Nat
  | finite x => x.bits
  | infinite negative => (if negative then Nat.pow 2 63 else 0) + 2047 * Nat.pow 2 52

/-! ## Decimal literals -/

/-- A sign, and the text behind it. -/
def splitSign : List Char → Bool × List Char
  | '-' :: rest => (true, rest)
  | '+' :: rest => (false, rest)
  | rest => (false, rest)

/-- The power of ten that the end of a literal writes: nothing, or an exponent with digits. -/
def literalExponent? : List Char → Option Int
  | [] => some 0
  | c :: rest =>
    if c = 'e' || c = 'E' then
      let signed := splitSign rest
      if signed.2.isEmpty || !signed.2.all isDigit then none
      else
        let n : Int := decimalValue signed.2
        some (if signed.1 then -n else n)
    else none

/-- The digits behind the point, and the rest. -/
def literalFraction : List Char → List Char × List Char
  | '.' :: rest => (rest.takeWhile isDigit, rest.dropWhile isDigit)
  | rest => ([], rest)

/-- The float of a literal: an optional sign, digits before and behind an optional point, at least
one of them, and an optional exponent. -/
def decimalLiteral? (text : List Char) : Option Extended :=
  let signed := splitSign text
  let whole := signed.2.takeWhile isDigit
  let fraction := literalFraction (signed.2.dropWhile isDigit)
  if whole.isEmpty && fraction.1.isEmpty then none
  else
    (literalExponent? fraction.2).map fun exponent =>
      let digits := decimalValue (whole ++ fraction.1)
      match Binary64.ofDecimal? signed.1 digits (exponent - fraction.1.length) with
      | some x => .finite x
      | none => .infinite signed.1

/-! ## Numeric texts -/

/-- The base that the first two characters announce, and the digits behind them. -/
def splitBase? : List Char → Option (Nat × List Char)
  | '0' :: c :: rest =>
    if c = 'x' || c = 'X' then some (16, rest)
    else if c = 'o' || c = 'O' then some (8, rest)
    else if c = 'b' || c = 'B' then some (2, rest)
    else none
  | _ => none

/-- An integer below `2 ^ 64` in a base. -/
def baseLiteral? (base : Nat) (digits : List Char) : Option Extended :=
  match unsigned? base digits with
  | some n => if n < Nat.pow 2 64 then some (.finite (.ofNat n)) else none
  | none => none

/-- The number that a text stands for; none if it stands for none. -/
def numericText? (text : String) : Option Extended :=
  let body := trim text.toList
  if body.isEmpty then some (.finite (.zero false))
  else
    match splitBase? body with
    | some (base, digits) => baseLiteral? base digits
    | none =>
      let signed := splitSign body
      if signed.2 = "Infinity".toList then some (.infinite signed.1) else decimalLiteral? body

end ApiContract
