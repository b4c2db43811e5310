import ApiContract.Number.Layout
import ApiContract.Text.Wording

/-!
# Numbers of documents

A number is an integer, written without point and exponent, or a float. The two kinds stay apart:
`1` and `1.0` are different numbers that mean the same value.

* `Number.same`: equality of numbers as written; the two float zeros are equal.
* `Number.sameValue`, `Number.lessValue`: the order of the values, across the two kinds.
-/

namespace ApiContract

/-- A number of a document. -/
inductive Number where
  | int (n : Int)
  | float (x : Binary64)
deriving DecidableEq, Repr

namespace Number

/-- Equality of numbers of one kind. -/
def same : Number → Number → Bool
  | int m, int n => m == n
  | float x, float y => (x.isZero && y.isZero) || x == y
  | _, _ => false

/-- The value as a numerator over a positive denominator. -/
def fraction : Number → Int × Nat
  | int n => (n, 1)
  | float x => x.fraction

/-- Whether two numbers mean one value. -/
def sameValue (a b : Number) : Bool :=
  let x := a.fraction
  let y := b.fraction
  x.1 * y.2 == y.1 * x.2

/-- Whether the value of one number is below that of another. -/
def lessValue (a b : Number) : Bool :=
  let x := a.fraction
  let y := b.fraction
  decide (x.1 * y.2 < y.1 * x.2)

/-- Whether the value is an integer. -/
def isIntegral : Number → Bool
  | int _ => true
  | float x => x.isIntegral

/-- The nearest float. -/
def toBinary64 : Number → Binary64
  | int n => Binary64.ofInt n
  | float x => x

/-- The text of a number in a document. -/
def text : Number → String
  | int n => integerText n
  | float x => Layout.json.render x

end Number

end ApiContract
