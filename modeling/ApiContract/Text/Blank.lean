/-!
# Blanks

* `isBlank`: the characters that the Unicode property White_Space holds of.
* `trim`: a text without the blanks at its two ends.
-/

namespace ApiContract

/-- The characters with the property White_Space. -/
def isBlank (c : Char) : Bool :=
  let n := c.toNat
  (9 ≤ n && n ≤ 13) || n == 0x20 || n == 0x85 || n == 0xA0 || n == 0x1680 ||
  (0x2000 ≤ n && n ≤ 0x200A) || n == 0x2028 || n == 0x2029 || n == 0x202F || n == 0x205F ||
  n == 0x3000

/-- A text without the blanks it starts with. -/
def trimLeft (text : List Char) : List Char := text.dropWhile isBlank

/-- A text without the blanks at its two ends. -/
def trim (text : List Char) : List Char := (trimLeft (trimLeft text).reverse).reverse

/-- Whether a text holds blanks only. -/
def isAllBlank (text : String) : Bool := text.toList.all isBlank

end ApiContract
