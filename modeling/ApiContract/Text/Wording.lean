/-!
# Words in messages

* `naturalText`, `integerText`: numbers in decimal.
* `joinWith`: texts with a separator between them.
-/

namespace ApiContract

/-- A natural number in decimal. -/
def naturalText (n : Nat) : String := String.ofList (Nat.toDigits 10 n)

/-- An integer in decimal, a minus sign before negative ones. -/
def integerText (n : Int) : String :=
  if n < 0 then "-" ++ naturalText n.natAbs else naturalText n.natAbs

/-- Texts one after the other, a separator between them. -/
def joinWith (separator : String) : List String → String
  | [] => ""
  | [text] => text
  | text :: rest => text ++ separator ++ joinWith separator rest

/-- A text between two backquotes. -/
def backquoted (text : String) : String := "`" ++ text ++ "`"

/-- Every occurrence of a text of at least one character replaced by another, from the left. -/
def replaceAll (pattern replacement : List Char) : List Char → List Char
  | [] => []
  | c :: rest =>
    if pattern ≠ [] ∧ pattern.isPrefixOf (c :: rest) then
      replacement ++ replaceAll pattern replacement (rest.drop (pattern.length - 1))
    else c :: replaceAll pattern replacement rest
termination_by text => text.length
decreasing_by all_goals (simp; try omega)

end ApiContract
