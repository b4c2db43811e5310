import ApiContract.Text.Category
import ApiContract.Text.LowerCaseTable

/-!
# Lower case

* `Char` by `Char`: `lowerChar`, the one lower-case form of a character, and `caseFold`, which also
  unites the characters that differ only as variants of one letter.
* `lowerCase`: the lower case of a text. A capital sigma at the end of a word becomes a final sigma.
* `asciiLower`, `asciiUpper`: the same for the ASCII letters alone.
-/

namespace ApiContract

/-! ## Single characters -/

/-- The lower-case form of a character that has a single one; other characters stay. -/
def lowerChar (c : Char) : Char :=
  if c.toNat < 128 then (if 'A' ≤ c && c ≤ 'Z' then Char.ofNat (c.toNat + 32) else c)
  else
    match lowerCaseRuns.find? fun r => r.1 ≤ c.toNat && c.toNat ≤ r.2.1 &&
        (c.toNat - r.1) % r.2.2.1 == 0 with
    | some r => Char.ofNat ((c.toNat : Int) + r.2.2.2).toNat
    | none => c

/-- Variants of letters and the letters they stand for when case is ignored. -/
def foldedVariants : List (Nat × Nat) :=
  [(0xB5, 0x3BC), (0x17F, 0x73), (0x345, 0x3B9), (0x3C2, 0x3C3), (0x3D0, 0x3B2),
   (0x3D1, 0x3B8), (0x3D5, 0x3C6), (0x3D6, 0x3C0), (0x3F0, 0x3BA), (0x3F1, 0x3C1),
   (0x3F5, 0x3B5), (0x1C80, 0x432), (0x1C81, 0x434), (0x1C82, 0x43E), (0x1C83, 0x441),
   (0x1C84, 0x442), (0x1C85, 0x442), (0x1C86, 0x44A), (0x1C87, 0x463), (0x1C88, 0xA64B),
   (0x1E9B, 0x1E61), (0x1FBE, 0x3B9)]

/-- The representative of all characters that are equal when case is ignored. -/
def caseFold (c : Char) : Char :=
  if c.toNat < 128 then lowerChar c
  else
    match foldedVariants.find? (·.1 == c.toNat) with
    | some v => Char.ofNat v.2
    | none => lowerChar c

/-! ## The final sigma -/

/-- Lower- and upper-case characters that are not letters, and modifier letters. -/
def otherCased : CodeRanges :=
  readRanges
    ["AA BA 2B0-2B8 2C0-2C1 2E0-2E4 345 37A 10FC 1D2C-1D6A 1D78 1D9B-1DBF 2071 207F 2090-209C",
     "2160-217F 24B6-24E9 2C7C-2C7D A69C-A69D A770 A7F2-A7F4 A7F8-A7F9 AB5C-AB5F AB69 10780",
     "10783-10785 10787-107B0 107B2-107BA 1E030-1E06D 1F130-1F149 1F150-1F169 1F170-1F189"]

/-- Whether a character has a case. -/
def isCased (c : Char) : Bool :=
  if c.toNat < 128 then c.isAlpha
  else
    Category.anyHolds [.uppercaseLetter, .lowercaseLetter, .titlecaseLetter] c ||
      otherCased.holds c.toNat

/-- Punctuation inside words. -/
def wordPunctuation : CodeRanges :=
  readRanges
    ["27 2E 3A B7 387 55F 5F4 2018-2019 2024 2027 FE13 FE52 FE55 FF07 FF0E FF1A"]

/-- Whether a character is passed over when the neighbours of a sigma are looked for. -/
def isCaseIgnorable (c : Char) : Bool :=
  wordPunctuation.holds c.toNat ||
    Category.anyHolds
      [.nonspacingMark, .enclosingMark, .format, .modifierLetter, .modifierSymbol] c

/-- Whether the nearest character that is not passed over has a case. -/
def meetsCased (text : List Char) : Bool :=
  match text.dropWhile isCaseIgnorable with
  | [] => false
  | c :: _ => isCased c

/-! ## Texts -/

/-- The lower case of a character, with the text before it, nearest character first, and the text
after it. -/
def lowerInContext (before : List Char) (c : Char) (after : List Char) : List Char :=
  if c.toNat = 0x3A3 then
    [if meetsCased before && !meetsCased after then 'ς' else 'σ']
  else if c.toNat = 0x130 then ['i', Char.ofNat 0x307]
  else [lowerChar c]

/-- The lower case of a text that follows the text `before`, which is given backwards. -/
def lowerAfter (before : List Char) : List Char → List Char
  | [] => []
  | c :: rest => lowerInContext before c rest ++ lowerAfter (c :: before) rest

/-- The lower case of a text. -/
def lowerCase (text : String) : String := String.ofList (lowerAfter [] text.toList)

/-- A text with its ASCII capitals made small. -/
def asciiLower (text : String) : String :=
  String.ofList (text.toList.map fun c => if 'A' ≤ c && c ≤ 'Z' then Char.ofNat (c.toNat + 32) else c)

/-- The upper-case form of an ASCII letter; other characters stay. -/
def asciiUpperChar (c : Char) : Char :=
  if 'a' ≤ c && c ≤ 'z' then Char.ofNat (c.toNat - 32) else c

end ApiContract
