/-!
# UTF-8

* `utf8Encode`: the bytes of a text.
* `utf8Decode`: the text of bytes; each longest piece that begins no character becomes one
  replacement character.

A decoder holds at most one unfinished character. A byte that does not continue it closes it as a
replacement character and is then read as the start of the next one.
-/

namespace ApiContract

/-- The bytes of a text. -/
def utf8Encode (text : List Char) : List Nat :=
  text.flatMap fun c => (String.utf8EncodeChar c).map UInt8.toNat

/-- An unfinished character: how many bytes are missing, the range of the next one, and the value of
the bits so far. -/
structure PartialChar where
  missing : Nat
  low : Nat
  high : Nat
  value : Nat
deriving Repr

/-- Stands for bytes that form no character. -/
def replacementChar : Char := Char.ofNat 0xFFFD

/-- Reads a byte where a character starts: what it completes, and what it leaves unfinished. -/
def utf8Start (b : Nat) : List Char × Option PartialChar :=
  if b < 0x80 then ([Char.ofNat b], none)
  else if 0xC2 ≤ b && b ≤ 0xDF then ([], some ⟨1, 0x80, 0xBF, b - 0xC0⟩)
  else if b == 0xE0 then ([], some ⟨2, 0xA0, 0xBF, 0⟩)
  else if b == 0xED then ([], some ⟨2, 0x80, 0x9F, 13⟩)
  else if 0xE1 ≤ b && b ≤ 0xEF then ([], some ⟨2, 0x80, 0xBF, b - 0xE0⟩)
  else if b == 0xF0 then ([], some ⟨3, 0x90, 0xBF, 0⟩)
  else if 0xF1 ≤ b && b ≤ 0xF3 then ([], some ⟨3, 0x80, 0xBF, b - 0xF0⟩)
  else if b == 0xF4 then ([], some ⟨3, 0x80, 0x8F, 4⟩)
  else ([replacementChar], none)

/-- Reads a byte after an unfinished character. -/
def utf8Continue (p : PartialChar) (b : Nat) : List Char × Option PartialChar :=
  if p.low ≤ b && b ≤ p.high then
    let value := p.value * 64 + (b - 0x80)
    if p.missing ≤ 1 then ([Char.ofNat value], none)
    else ([], some ⟨p.missing - 1, 0x80, 0xBF, value⟩)
  else
    let next := utf8Start b
    (replacementChar :: next.1, next.2)

/-- Reads bytes after what may be an unfinished character. -/
def utf8DecodeFrom : Option PartialChar → List Nat → List Char
  | none, [] => []
  | some _, [] => [replacementChar]
  | none, b :: rest =>
    let next := utf8Start b
    next.1 ++ utf8DecodeFrom next.2 rest
  | some p, b :: rest =>
    let next := utf8Continue p b
    next.1 ++ utf8DecodeFrom next.2 rest

/-- The text of bytes. -/
def utf8Decode (bytes : List Nat) : List Char := utf8DecodeFrom none bytes

/-- Whether bytes are the bytes of some text. -/
def isUtf8 (bytes : List Nat) : Bool := utf8Encode (utf8Decode bytes) == bytes

/-! ## Percent encoding -/

/-- The bytes of a text in which `%XX` stands for one byte; other percent signs stay. With
`plusIsSpace`, a plus sign stands for a space. -/
def percentBytes (plusIsSpace : Bool) : List Char → List Nat
  | [] => []
  | '%' :: a :: b :: rest =>
    match hexValue? a, hexValue? b with
    | some x, some y => (x * 16 + y) :: percentBytes plusIsSpace rest
    | _, _ => 0x25 :: percentBytes plusIsSpace (a :: b :: rest)
  | '+' :: rest => (if plusIsSpace then 0x20 else 0x2B) :: percentBytes plusIsSpace rest
  | c :: rest => utf8Encode [c] ++ percentBytes plusIsSpace rest
where
  /-- The value of a hexadecimal digit. -/
  hexValue? (c : Char) : Option Nat :=
    if '0' ≤ c ∧ c ≤ '9' then some (c.toNat - 48)
    else if 'a' ≤ c ∧ c ≤ 'f' then some (c.toNat - 87)
    else if 'A' ≤ c ∧ c ≤ 'F' then some (c.toNat - 55)
    else none

end ApiContract
