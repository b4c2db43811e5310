import ApiContract.Number.Decimal

/-!
# Pointers in texts

* `isPointer`: steps behind slashes, a tilde being followed by `0` or `1`.
* `isRelativePointer`: a number of steps upward, then a pointer or a number sign.
-/

namespace ApiContract

/-- Whether every tilde is followed by one of the two digits it needs. -/
def hasPairedTildes : List Char → Bool
  | [] => true
  | '~' :: c :: rest => (c = '0' || c = '1') && hasPairedTildes rest
  | ['~'] => false
  | _ :: rest => hasPairedTildes rest

/-- Whether a text is a pointer. -/
def isPointer (text : List Char) : Bool :=
  match text with
  | [] => true
  | '/' :: rest => hasPairedTildes rest
  | _ => false

/-- Whether a text is a relative pointer. -/
def isRelativePointer (text : List Char) : Bool :=
  let digits := text.takeWhile isDigit
  let rest := text.dropWhile isDigit
  !digits.isEmpty && (digits.length == 1 || digits.head? != some '0') &&
    (rest == ['#'] || isPointer rest)

end ApiContract
