import ApiContract.Number.Decimal
import ApiContract.Text.Category

/-!
# Names and addresses of hosts

* `isIpv4`: four numbers below 256, without leading zeros.
* `isIpv6`: eight groups of up to four hexadecimal digits; one run of groups may be left out, and the
  last two may be written as an IPv4 address.
* `isHostname`: labels of letters, digits and inner hyphens; `isIdnHostname` admits letters of all
  alphabets.
-/

namespace ApiContract

/-! ## Addresses -/

/-- Whether a text is a number below 256 without leading zeros. -/
def isOctet (text : List Char) : Bool :=
  !text.isEmpty && text.length ≤ 3 && text.all isDigit && decimalValue text < 256 &&
    (text.length == 1 || text.head? != some '0')

/-- Whether a text is an IPv4 address. -/
def isIpv4 (text : List Char) : Bool :=
  let parts := text.splitOn '.'
  parts.length == 4 && parts.all isOctet

/-- Whether a character is a hexadecimal digit. -/
def isHexDigit (c : Char) : Bool :=
  match digitValue? c with
  | some d => d < 16
  | none => false

/-- Whether a text is a group of an IPv6 address. -/
def isHexGroup (text : List Char) : Bool :=
  !text.isEmpty && text.length ≤ 4 && text.all isHexDigit

/-- How many groups colons divide a text into, if all are well written; only the very last part of an
address may be an IPv4 address, which counts twice. No text has no groups. -/
def groupCount? (isLast : Bool) (text : List Char) : Option Nat :=
  if text.isEmpty then some 0
  else
    let parts := text.splitOn ':'
    let groups := parts.dropLast
    match parts.getLast? with
    | some last =>
      if !groups.all isHexGroup then none
      else if isHexGroup last then some parts.length
      else if isLast && isIpv4 last then some (parts.length + 1)
      else none
    | none => none

/-- Splits a text at its first pair of colons. -/
def splitDoubleColon? : List Char → Option (List Char × List Char)
  | ':' :: ':' :: rest => some ([], rest)
  | c :: rest => (splitDoubleColon? rest).map fun parts => (c :: parts.1, parts.2)
  | [] => none

/-- Whether a text is an IPv6 address. -/
def isIpv6 (text : List Char) : Bool :=
  match splitDoubleColon? text with
  | some (before, after) =>
    match groupCount? false before, groupCount? true after with
    | some m, some n => m + n ≤ 7
    | _, _ => false
  | none => groupCount? true text == some 8

/-! ## Names -/

def isLabelChar (c : Char) : Bool := (decide (c.toNat < 128) && c.isAlphanum) || c = '-'

/-- Whether a text is a label: not empty, not too long, hyphens inside only. -/
def isLabel (text : List Char) : Bool :=
  !text.isEmpty && text.length ≤ 63 && text.all isLabelChar &&
    text.head? != some '-' && text.getLast? != some '-'

/-- Whether a text is the name of a host. -/
def isHostname (text : List Char) : Bool :=
  text.length ≤ 253 && (text.splitOn '.').all isLabel

/-- Whether a character separates labels in some alphabet. -/
def isLabelSeparator (c : Char) : Bool :=
  c = '.' || c.toNat == 0x3002 || c.toNat == 0xFF0E || c.toNat == 0xFF61

/-- Whether a character may stand in a label of any alphabet. -/
def isIdnChar (c : Char) : Bool :=
  isLabelChar c ||
    (decide (128 ≤ c.toNat) &&
      (isLetter c || isMark c || Category.anyHolds [.decimalNumber] c ||
        [0xB7, 0x375, 0x5F3, 0x5F4, 0x200C, 0x200D, 0x30FB, 0x3007].contains c.toNat))

/-- Whether characters that are allowed between certain neighbours only stand between them. -/
def hasAllowedNeighbours (before : List Char) : List Char → Bool
  | [] => true
  | c :: rest =>
    let isGreek (d : Char) : Bool := (0x370 ≤ d.toNat && d.toNat ≤ 0x3FF) ||
      (0x1F00 ≤ d.toNat && d.toNat ≤ 0x1FFF)
    let isHebrew (d : Char) : Bool := 0x590 ≤ d.toNat && d.toNat ≤ 0x5FF
    let isVirama (d : Char) : Bool :=
      [0x94D, 0x9CD, 0xA4D, 0xACD, 0xB4D, 0xBCD, 0xC4D, 0xCCD, 0xD4D, 0xDCA].contains d.toNat
    let allowed :=
      if c.toNat == 0xB7 then before.head? == some 'l' && rest.head? == some 'l'
      else if c.toNat == 0x375 then rest.head?.any isGreek
      else if c.toNat == 0x5F3 || c.toNat == 0x5F4 then before.head?.any isHebrew
      else if c.toNat == 0x200C || c.toNat == 0x200D then before.head?.any isVirama
      else true
    allowed && hasAllowedNeighbours (c :: before) rest

/-- Whether a katakana middle dot has letters of its alphabets in the label. -/
def hasMiddleDotLetters (text : List Char) : Bool :=
  let isKana (d : Char) : Bool := (0x3041 ≤ d.toNat && d.toNat ≤ 0x30FA) ||
    (0x30FC ≤ d.toNat && d.toNat ≤ 0x30FF) || (0x4E00 ≤ d.toNat && d.toNat ≤ 0x9FFF)
  !text.any (fun c => c.toNat == 0x30FB) || text.any isKana

/-- Whether the two kinds of Arabic digits are not mixed. -/
def hasOneDigitKind (text : List Char) : Bool :=
  !(text.any (fun c => 0x660 ≤ c.toNat && c.toNat ≤ 0x669) &&
    text.any (fun c => 0x6F0 ≤ c.toNat && c.toNat ≤ 0x6F9))

/-- Whether a text is a label in some alphabet. -/
def isIdnLabel (text : List Char) : Bool :=
  if text.all (fun c => decide (c.toNat < 128)) then isLabel text
  else
    text.length ≤ 59 && text.all isIdnChar && text.head? != some '-' &&
      text.getLast? != some '-' && !((text.drop 2).take 2 == ['-', '-']) &&
      !text.head?.any isMark && hasAllowedNeighbours [] text && hasMiddleDotLetters text &&
      hasOneDigitKind text

/-- Splits a text at the characters of a kind. -/
def splitWhere (separates : Char → Bool) : List Char → List (List Char)
  | [] => [[]]
  | c :: rest =>
    let parts := splitWhere separates rest
    if separates c then [] :: parts
    else
      match parts with
      | [] => [[c]]
      | first :: more => (c :: first) :: more

/-- Whether a text is the name of a host in some alphabet. -/
def isIdnHostname (text : List Char) : Bool :=
  text.length ≤ 253 && (splitWhere isLabelSeparator text).all isIdnLabel

end ApiContract
