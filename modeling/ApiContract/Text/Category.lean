import ApiContract.Text.CategoryTable
import ApiContract.Number.Decimal

/-!
# General categories

* `Category`: the thirty general categories of Unicode, and `Category.holds`, the characters of one.
* `CodeRanges`: a class of characters as a list of ranges, in order.
* `isGraphic`: the characters that are written as they are in quoted text.
-/

namespace ApiContract

/-! ## Ranges -/

/-- Code points given by ranges, both ends included. -/
abbrev CodeRanges := List (Nat × Nat)

/-- Whether a code point lies in one of the ranges. -/
def CodeRanges.holds (ranges : CodeRanges) (n : Nat) : Bool :=
  ranges.any fun r => r.1 ≤ n && n ≤ r.2

/-- A range written as `41-5A`, or as `41` for a single code point. -/
def readRange? (text : List Char) : Option (Nat × Nat) :=
  let first := text.takeWhile (· ≠ '-')
  match text.dropWhile (· ≠ '-') with
  | [] => (digitsValue? 16 0 first).map fun n => (n, n)
  | _ :: last =>
    match digitsValue? 16 0 first, digitsValue? 16 0 last with
    | some a, some b => some (a, b)
    | _, _ => none

/-- The ranges of texts that separate them by single spaces. -/
def readRanges (texts : List String) : CodeRanges :=
  texts.flatMap fun text => (text.toList.splitOn ' ').filterMap readRange?

/-! ## Categories -/

/-- A general category. -/
inductive Category where
  | uppercaseLetter | lowercaseLetter | titlecaseLetter | modifierLetter | otherLetter
  | nonspacingMark | spacingMark | enclosingMark
  | decimalNumber | letterNumber | otherNumber
  | connectorPunctuation | dashPunctuation | openPunctuation | closePunctuation
  | initialPunctuation | finalPunctuation | otherPunctuation
  | mathSymbol | currencySymbol | modifierSymbol | otherSymbol
  | spaceSeparator | lineSeparator | paragraphSeparator
  | control | format | surrogate | privateUse | unassigned
deriving DecidableEq, Repr

namespace Category

def uppercaseLetterRanges : CodeRanges := readRanges CategoryTable.uppercaseLetter
def lowercaseLetterRanges : CodeRanges := readRanges CategoryTable.lowercaseLetter
def titlecaseLetterRanges : CodeRanges := readRanges CategoryTable.titlecaseLetter
def modifierLetterRanges : CodeRanges := readRanges CategoryTable.modifierLetter
def otherLetterRanges : CodeRanges := readRanges CategoryTable.otherLetter
def nonspacingMarkRanges : CodeRanges := readRanges CategoryTable.nonspacingMark
def spacingMarkRanges : CodeRanges := readRanges CategoryTable.spacingMark
def enclosingMarkRanges : CodeRanges := readRanges CategoryTable.enclosingMark
def decimalNumberRanges : CodeRanges := readRanges CategoryTable.decimalNumber
def letterNumberRanges : CodeRanges := readRanges CategoryTable.letterNumber
def otherNumberRanges : CodeRanges := readRanges CategoryTable.otherNumber
def connectorPunctuationRanges : CodeRanges := readRanges CategoryTable.connectorPunctuation
def dashPunctuationRanges : CodeRanges := readRanges CategoryTable.dashPunctuation
def openPunctuationRanges : CodeRanges := readRanges CategoryTable.openPunctuation
def closePunctuationRanges : CodeRanges := readRanges CategoryTable.closePunctuation
def initialPunctuationRanges : CodeRanges := readRanges CategoryTable.initialPunctuation
def finalPunctuationRanges : CodeRanges := readRanges CategoryTable.finalPunctuation
def otherPunctuationRanges : CodeRanges := readRanges CategoryTable.otherPunctuation
def mathSymbolRanges : CodeRanges := readRanges CategoryTable.mathSymbol
def currencySymbolRanges : CodeRanges := readRanges CategoryTable.currencySymbol
def modifierSymbolRanges : CodeRanges := readRanges CategoryTable.modifierSymbol
def otherSymbolRanges : CodeRanges := readRanges CategoryTable.otherSymbol
def spaceSeparatorRanges : CodeRanges := readRanges CategoryTable.spaceSeparator
def lineSeparatorRanges : CodeRanges := readRanges CategoryTable.lineSeparator
def paragraphSeparatorRanges : CodeRanges := readRanges CategoryTable.paragraphSeparator
def controlRanges : CodeRanges := readRanges CategoryTable.control
def formatRanges : CodeRanges := readRanges CategoryTable.format
def surrogateRanges : CodeRanges := readRanges CategoryTable.surrogate
def privateUseRanges : CodeRanges := readRanges CategoryTable.privateUse

/-- Every category that has ranges. -/
def assigned : List Category :=
  [uppercaseLetter, lowercaseLetter, titlecaseLetter, modifierLetter, otherLetter,
   nonspacingMark, spacingMark, enclosingMark, decimalNumber, letterNumber, otherNumber,
   connectorPunctuation, dashPunctuation, openPunctuation, closePunctuation,
   initialPunctuation, finalPunctuation, otherPunctuation,
   mathSymbol, currencySymbol, modifierSymbol, otherSymbol,
   spaceSeparator, lineSeparator, paragraphSeparator, control, format, surrogate, privateUse]

/-- The ranges of a category; the unassigned code points have none of their own. -/
def ranges : Category → CodeRanges
  | uppercaseLetter => uppercaseLetterRanges
  | lowercaseLetter => lowercaseLetterRanges
  | titlecaseLetter => titlecaseLetterRanges
  | modifierLetter => modifierLetterRanges
  | otherLetter => otherLetterRanges
  | nonspacingMark => nonspacingMarkRanges
  | spacingMark => spacingMarkRanges
  | enclosingMark => enclosingMarkRanges
  | decimalNumber => decimalNumberRanges
  | letterNumber => letterNumberRanges
  | otherNumber => otherNumberRanges
  | connectorPunctuation => connectorPunctuationRanges
  | dashPunctuation => dashPunctuationRanges
  | openPunctuation => openPunctuationRanges
  | closePunctuation => closePunctuationRanges
  | initialPunctuation => initialPunctuationRanges
  | finalPunctuation => finalPunctuationRanges
  | otherPunctuation => otherPunctuationRanges
  | mathSymbol => mathSymbolRanges
  | currencySymbol => currencySymbolRanges
  | modifierSymbol => modifierSymbolRanges
  | otherSymbol => otherSymbolRanges
  | spaceSeparator => spaceSeparatorRanges
  | lineSeparator => lineSeparatorRanges
  | paragraphSeparator => paragraphSeparatorRanges
  | control => controlRanges
  | format => formatRanges
  | surrogate => surrogateRanges
  | privateUse => privateUseRanges
  | unassigned => []

/-- Whether a character belongs to a category. -/
def holds (k : Category) (c : Char) : Bool :=
  match k with
  | unassigned => assigned.all fun other => !other.ranges.holds c.toNat
  | other => other.ranges.holds c.toNat

/-- Whether a character belongs to one of the categories. -/
def anyHolds (ks : List Category) (c : Char) : Bool := ks.any (·.holds c)

def letters : List Category :=
  [uppercaseLetter, lowercaseLetter, titlecaseLetter, modifierLetter, otherLetter]

def marks : List Category := [nonspacingMark, spacingMark, enclosingMark]

end Category

/-! ## Classes built from categories -/

/-- Whether a character is a letter. -/
def isLetter (c : Char) : Bool :=
  if c.toNat < 128 then c.isAlpha else Category.anyHolds Category.letters c

/-- Whether a character is a combining mark. -/
def isMark (c : Char) : Bool :=
  if c.toNat < 0x300 then false else Category.anyHolds Category.marks c

/-- Spacing characters that extend the character before them all the same. -/
def extendingExceptions : CodeRanges :=
  readRanges
    ["9BE 9D7 B3E B57 BBE BD7 CC0 CC2 CC7-CC8 CCA-CCB CD5-CD6 D3E D57 DCF DDF 1715 1734 1B35 1B3B",
     "1B3D 1B43-1B44 1BAA 1BF2-1BF3 200C 302E-302F A953 A9C0 FF9E-FF9F 111C0 11235 1133E 1134D 11357",
     "114B0 114BD 115AF 116B6 11930 1193D 11F41 16FF0-16FF1 1D165-1D166 1D16D-1D172 E0020-E007F"]

/-- Whether a character extends the one before it instead of standing on its own. -/
def isExtending (c : Char) : Bool :=
  if c.toNat < 0x300 then false
  else
    Category.anyHolds [.nonspacingMark, .enclosingMark] c || extendingExceptions.holds c.toNat

/-- Whether a character has a visible form of its own: neither a control or format character, a
separator other than the space, nor without a meaning. -/
def isGraphic (c : Char) : Bool :=
  let n := c.toNat
  if n < 0x7F then 0x20 ≤ n
  else
    !(Category.anyHolds
        [.control, .format, .surrogate, .privateUse, .unassigned,
         .spaceSeparator, .lineSeparator, .paragraphSeparator] c)

end ApiContract
