import ApiContract.Number.Decimal

/-!
# Source text

A YAML text is read as a list of characters that know where they stand. Every line break but two is one
newline.

* `Spot`, `spotsOf`: the characters of a text with their places.
* `isBreak`, `isGap`, `endsWord`: what separates words.
* `isMarker`, `isDocumentMarker`: whether the marker of a document follows.
-/

namespace ApiContract.Yaml

/-- A character and where it stands. -/
structure Spot where
  char : Char
  line : Nat
  column : Nat
  /-- How many characters stand before it. -/
  index : Nat
deriving DecidableEq, Repr

/-! ## Characters -/

/-- Whether a character may stand in a text. -/
def isAllowed (c : Char) : Bool :=
  let n := c.toNat
  n == 9 || n == 10 || n == 13 || (0x20 ≤ n && n ≤ 0x7E) || n == 0x85 || (0xA0 ≤ n && n ≤ 0xD7FF) ||
    (0xE000 ≤ n && n ≤ 0xFFFD) || 0x10000 ≤ n

/-- Whether a character breaks a line. Of the five that do, three have become newlines. -/
def isBreak (c : Char) : Bool := c = '\n' || c.toNat == 0x2028 || c.toNat == 0x2029

/-- Whether a character leaves a gap in a line. -/
def isGap (c : Char) : Bool := c = ' ' || c = '\t'

/-- Whether a character, or the end of the text, ends a word. -/
def endsWord : Option Char → Bool
  | none => true
  | some c => isGap c || isBreak c

/-- Whether a character belongs to a name. -/
def isNameChar (c : Char) : Bool :=
  isDigit c || ('a' ≤ c && c ≤ 'z') || ('A' ≤ c && c ≤ 'Z') || c = '_' || c = '-'

/-! ## Places -/

/-- The characters of a text from a place on. -/
def spotsFrom (line column index : Nat) : List Char → List Spot
  | [] => []
  | '\r' :: '\n' :: rest => ⟨'\n', line, column, index⟩ :: spotsFrom (line + 1) 0 (index + 2) rest
  | c :: rest =>
    if c = '\r' || c.toNat == 0x85 then
      ⟨'\n', line, column, index⟩ :: spotsFrom (line + 1) 0 (index + 1) rest
    else if isBreak c then ⟨c, line, column, index⟩ :: spotsFrom (line + 1) 0 (index + 1) rest
    else ⟨c, line, column, index⟩ :: spotsFrom line (column + 1) (index + 1) rest

/-- The characters of a text. -/
def spotsOf (text : String) : List Spot := spotsFrom 0 0 0 text.toList

/-! ## Looking ahead -/

/-- The next character. -/
def peek (spots : List Spot) : Option Char := spots.head?.map (·.char)

/-- The character behind some others. -/
def peekAt (n : Nat) (spots : List Spot) : Option Char := (spots[n]?).map (·.char)

/-- Whether a text follows. -/
def follows (word : String) (spots : List Spot) : Bool :=
  word.toList.isPrefixOf ((spots.take word.length).map (·.char))

/-- Whether a marker follows: three characters at the start of a line that are a word. -/
def isMarker (word : String) (spots : List Spot) : Bool :=
  (spots.head?.map (·.column)) == some 0 && follows word spots && endsWord (peekAt 3 spots)

/-- Whether the marker of the start or of the end of a document follows. -/
def isDocumentMarker (spots : List Spot) : Bool := isMarker "---" spots || isMarker "..." spots

/-- The spots behind the gaps. -/
def skipGaps (spots : List Spot) : List Spot := spots.dropWhile fun s => isGap s.char

/-- The spots from the end of the line on. -/
def skipLine (spots : List Spot) : List Spot := spots.dropWhile fun s => !isBreak s.char

end ApiContract.Yaml
