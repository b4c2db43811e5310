import ApiContract.Json.Basic
import ApiContract.Text.Utf8

/-!
# Reading JSON

`Json.parse` reads a text as one value between blanks. Containers may be nested `nestingLimit` deep;
of fields with one key the last one stays, and the fields of an object end up sorted by key.

A failure has a cause and a place. The place is the number of bytes left where reading stopped; it
counts the character that was looked at when the cause is that character.

* `readNumber`: integers from `-2 ^ 63` to below `2 ^ 64` stay integers, all else is a float.
* `readText`: the rest of a quoted text.
* `readValue`: a value, by recursion on the levels of nesting that are still allowed.
-/

namespace ApiContract

namespace Json

/-! ## Failures -/

/-- Why a text is not JSON. -/
inductive ParseCause where
  | endInList | endInObject | endInString | endInValue
  | colonExpected | commaOrBracketExpected | commaOrBraceExpected
  | wordExpected | valueExpected
  | invalidEscape | invalidNumber | numberOutOfRange
  | controlCharacter | keyNotString
  | loneSurrogate | endOfHexEscape
  | trailingComma | trailingCharacters | tooDeep
deriving DecidableEq, Repr

def ParseCause.text : ParseCause → String
  | endInList => "EOF while parsing a list"
  | endInObject => "EOF while parsing an object"
  | endInString => "EOF while parsing a string"
  | endInValue => "EOF while parsing a value"
  | colonExpected => "expected `:`"
  | commaOrBracketExpected => "expected `,` or `]`"
  | commaOrBraceExpected => "expected `,` or `\x7d`"
  | wordExpected => "expected ident"
  | valueExpected => "expected value"
  | invalidEscape => "invalid escape"
  | invalidNumber => "invalid number"
  | numberOutOfRange => "number out of range"
  | controlCharacter => "control character (\\u0000-\\u001F) found while parsing a string"
  | keyNotString => "key must be a string"
  | loneSurrogate => "lone leading surrogate in hex escape"
  | endOfHexEscape => "unexpected end of hex escape"
  | trailingComma => "trailing comma"
  | trailingCharacters => "trailing characters"
  | tooDeep => "recursion limit exceeded"

/-- A failure: its cause, and how many bytes are left behind the place it is reported at. -/
structure ParseFailure where
  cause : ParseCause
  left : Nat
deriving DecidableEq, Repr

/-- What reading a part of a text gives: the part's value and the rest of the text. -/
abbrev Reading (α : Type) := Except ParseFailure (α × List Char)

/-- The number of bytes of a text. -/
def byteLength (text : List Char) : Nat := text.foldl (fun n c => n + c.utf8Size) 0

/-- Fails where the rest starts. -/
def failAt {α : Type} (cause : ParseCause) (rest : List Char) : Except ParseFailure α :=
  .error ⟨cause, byteLength rest⟩

/-- Fails behind the first byte of the rest, if there is one. -/
def failBehind {α : Type} (cause : ParseCause) (rest : List Char) : Except ParseFailure α :=
  .error ⟨cause, byteLength rest - 1⟩

def isJsonBlank (c : Char) : Bool := c = ' ' || c = '\n' || c = '\t' || c = '\r'

def skipBlanks (text : List Char) : List Char := text.dropWhile isJsonBlank

/-! ## Numbers -/

/-- Appends digits to a number as long as it stays within a limit; also the count of digits used. -/
def appendDigits (limit : Nat) (n : Nat) : List Char → Nat × Nat
  | [] => (n, 0)
  | c :: rest =>
    let next := n * 10 + (c.toNat - '0'.toNat)
    if limit < next then (n, 0)
    else
      let more := appendDigits limit next rest
      (more.1, more.2 + 1)

/-- The greatest number whose digits are kept exactly. -/
def digitLimit : Nat := Nat.pow 2 64 - 1

/-- The greatest power of ten that is looked at. -/
def exponentLimit : Nat := Nat.pow 2 31 - 1

/-- The float of digits and a power of ten. -/
def floatOf (negative : Bool) (digits : Nat) (exponent : Int) (rest : List Char) :
    Reading Number :=
  match Binary64.ofDecimalSteps? negative digits exponent with
  | some x => .ok (.float x, rest)
  | none => failAt .numberOutOfRange rest

/-- A sign before an exponent: whether it is a minus sign, and the rest. -/
def exponentSign : List Char → Bool × List Char
  | '+' :: rest => (false, rest)
  | '-' :: rest => (true, rest)
  | rest => (false, rest)

/-- The exponent behind an `e`, added to the power of ten found so far. -/
def readExponent (negative : Bool) (digits : Nat) (exponent : Int) (text : List Char) :
    Reading Number :=
  let signed := exponentSign text
  let run := signed.2.takeWhile isDigit
  let rest := signed.2.dropWhile isDigit
  if run.isEmpty then
    match signed.2 with
    | [] => failAt .endInValue []
    | _ => failBehind .invalidNumber signed.2
  else
    let power := appendDigits exponentLimit 0 run
    if power.2 < run.length then
      if digits ≠ 0 ∧ signed.1 = false then
        failAt .numberOutOfRange (signed.2.drop (power.2 + 1))
      else .ok (.float (Binary64.zero negative), rest)
    else
      floatOf negative digits (if signed.1 then exponent - power.1 else exponent + power.1) rest

/-- The end of a number behind its digits: an exponent, or nothing. -/
def readScale (negative : Bool) (digits : Nat) (exponent : Int) : List Char → Reading Number
  | 'e' :: rest => readExponent negative digits exponent rest
  | 'E' :: rest => readExponent negative digits exponent rest
  | rest => floatOf negative digits exponent rest

/-- The digits behind a point. Those that no longer fit are dropped. -/
def readFraction (negative : Bool) (digits : Nat) (exponent : Int) (text : List Char) :
    Reading Number :=
  let run := text.takeWhile isDigit
  let rest := text.dropWhile isDigit
  match run, rest with
  | [], [] => failBehind .endInValue []
  | [], rest => failBehind .invalidNumber rest
  | run, rest =>
    let more := appendDigits digitLimit digits run
    readScale negative more.1 (exponent - more.2) rest

/-- A number without point and exponent. Minus zero is a float, and so is a number outside the range
of 64-bit integers. -/
def integerOf (negative : Bool) (digits : Nat) : Number :=
  if !negative then .int digits
  else if digits = 0 || Nat.pow 2 63 < digits then .float (Binary64.ofNat digits).neg
  else .int (-(digits : Int))

/-- The end of a number behind the digits before its point; `dropped` digits did not fit. -/
def readNumberEnd (negative : Bool) (digits dropped : Nat) : List Char → Reading Number
  | '.' :: rest => readFraction negative digits dropped rest
  | rest =>
    match rest with
    | 'e' :: _ | 'E' :: _ => readScale negative digits dropped rest
    | _ =>
      if dropped = 0 then .ok (integerOf negative digits, rest)
      else floatOf negative digits dropped rest

/-- A number behind its minus sign, if it has one. -/
def readNumber (negative : Bool) (text : List Char) : Reading Number :=
  match text with
  | [] => failAt .endInValue []
  | first :: behind =>
    if !isDigit first then failBehind .invalidNumber text
    else if first = '0' then
      match behind with
      | [] => readNumberEnd negative 0 0 []
      | c :: _ =>
        if isDigit c then failBehind .invalidNumber behind else readNumberEnd negative 0 0 behind
    else
      let run := text.takeWhile isDigit
      let rest := text.dropWhile isDigit
      let whole := appendDigits digitLimit 0 run
      readNumberEnd negative whole.1 (run.length - whole.2) rest

/-! ## Quoted text -/

/-- The character of a one-letter escape. -/
def shortEscape? (c : Char) : Option Char :=
  if c = '"' then some '"'
  else if c = '\\' then some '\\'
  else if c = '/' then some '/'
  else if c = 'b' then some (Char.ofNat 8)
  else if c = 'f' then some (Char.ofNat 12)
  else if c = 'n' then some '\n'
  else if c = 'r' then some '\r'
  else if c = 't' then some '\t'
  else none

/-- The number of four hexadecimal digits. -/
def hexQuad? (a b c d : Char) : Option Nat := digitsValue? 16 0 [a, b, c, d]

def isHighSurrogate (n : Nat) : Bool := 0xD800 ≤ n && n ≤ 0xDBFF

def isLowSurrogate (n : Nat) : Bool := 0xDC00 ≤ n && n ≤ 0xDFFF

/-- The code point of a pair of surrogates. -/
def joinSurrogates (high low : Nat) : Nat := (high - 0xD800) * 0x400 + (low - 0xDC00) + 0x10000

/-- Why four hexadecimal digits cannot be read here. -/
def hexFailure (text : List Char) : ParseFailure :=
  if byteLength text < 4 then ⟨.endInString, 0⟩ else ⟨.invalidEscape, byteLength text - 4⟩

/-- Why a high surrogate is not completed by the text behind it. -/
def pairFailure : List Char → ParseFailure
  | [] => ⟨.endInString, 0⟩
  | '\\' :: [] => ⟨.endInString, 0⟩
  | '\\' :: 'u' :: rest =>
    match rest with
    | a :: b :: c :: d :: behind =>
      match hexQuad? a b c d with
      | some _ => ⟨.loneSurrogate, byteLength behind⟩
      | none => hexFailure rest
    | _ => hexFailure rest
  | '\\' :: rest => ⟨.endOfHexEscape, byteLength rest - 1⟩
  | rest => ⟨.endOfHexEscape, byteLength rest - 1⟩

/-- A quoted text behind its first quote; `seen` holds its characters so far, backwards. -/
def readText (seen : List Char) : List Char → Reading String
  | [] => failAt .endInString []
  | '"' :: rest => .ok (String.ofList seen.reverse, rest)
  | '\\' :: 'u' :: a :: b :: c :: d :: rest =>
    match hexQuad? a b c d with
    | none => .error (hexFailure (a :: b :: c :: d :: rest))
    | some n =>
      if isLowSurrogate n then failAt .loneSurrogate rest
      else if isHighSurrogate n then
        match rest with
        | '\\' :: 'u' :: e :: f :: g :: h :: behind =>
          match hexQuad? e f g h with
          | some m =>
            if isLowSurrogate m then
              readText (Char.ofNat (joinSurrogates n m) :: seen) behind
            else .error (pairFailure rest)
          | none => .error (pairFailure rest)
        | _ => .error (pairFailure rest)
      else readText (Char.ofNat n :: seen) rest
  | '\\' :: [] => failAt .endInString []
  | '\\' :: c :: rest =>
    match shortEscape? c with
    | some e => readText (e :: seen) rest
    | none =>
      if c = 'u' then .error (hexFailure rest)
      else failBehind .invalidEscape (c :: rest)
  | c :: rest =>
    if c.toNat < 0x20 then failAt .controlCharacter rest else readText (c :: seen) rest

/-! ## Values -/

/-- A word behind its first letter. -/
def readWord (value : Json) : List Char → List Char → Reading Json
  | [], rest => .ok (value, rest)
  | _ :: _, [] => failAt .endInValue []
  | w :: word, c :: rest =>
    if c = w then readWord value word rest else failBehind .wordExpected (c :: rest)

/-- The items of a list behind its bracket. Each item takes at least one character, so the length
of the text bounds their number. -/
def readItems (item : List Char → Reading Json) :
    Nat → List Json → List Char → Reading (List Json)
  | 0, _, _ => failAt .endInList []
  | n + 1, seen, text =>
    match skipBlanks text with
    | [] => failBehind .endInList []
    | ']' :: rest => .ok (seen.reverse, rest)
    | c :: rest =>
      let next : Except ParseFailure (List Char) :=
        if seen.isEmpty then .ok (c :: rest)
        else if c = ',' then
          match skipBlanks rest with
          | [] => failBehind .endInValue []
          | ']' :: behind => failBehind .trailingComma (']' :: behind)
          | behind => .ok behind
        else failBehind .commaOrBracketExpected (c :: rest)
      match next with
      | .error e => .error e
      | .ok start =>
        match item start with
        | .error e => .error e
        | .ok (value, behind) => readItems item n (value :: seen) behind

/-- A field that starts with its quoted key. -/
def readField (item : List Char → Reading Json) (text : List Char) : Reading (String × Json) :=
  match readText [] (text.drop 1) with
  | .error e => .error e
  | .ok (key, behind) =>
    match skipBlanks behind with
    | [] => failBehind .endInObject []
    | ':' :: rest =>
      match item rest with
      | .error e => .error e
      | .ok (value, left) => .ok ((key, value), left)
    | rest => failBehind .colonExpected rest

/-- The fields of an object behind its brace. -/
def readFields (item : List Char → Reading Json) :
    Nat → Bool → Fields → List Char → Reading Fields
  | 0, _, _, _ => failAt .endInObject []
  | n + 1, first, seen, text =>
    match skipBlanks text with
    | [] => failBehind .endInObject []
    | '\x7d' :: rest => .ok (seen, rest)
    | c :: rest =>
      let next : Except ParseFailure (List Char) :=
        if first then
          if c = '"' then .ok (c :: rest) else failBehind .keyNotString (c :: rest)
        else if c = ',' then
          match skipBlanks rest with
          | [] => failBehind .endInValue []
          | '"' :: behind => .ok ('"' :: behind)
          | '\x7d' :: behind => failBehind .trailingComma ('\x7d' :: behind)
          | behind => failBehind .keyNotString behind
        else failBehind .commaOrBraceExpected (c :: rest)
      match next with
      | .error e => .error e
      | .ok start =>
        match readField item start with
        | .error e => .error e
        | .ok ((key, value), behind) =>
          readFields item n false (seen.insert key value) behind

/-- A value behind blanks, with at most `levels` containers one in the other. -/
def readValue (levels : Nat) (text : List Char) : Reading Json :=
  match skipBlanks text with
  | [] => failBehind .endInValue []
  | c :: rest =>
    if c = 'n' then readWord .null ['u', 'l', 'l'] rest
    else if c = 't' then readWord (.bool true) ['r', 'u', 'e'] rest
    else if c = 'f' then readWord (.bool false) ['a', 'l', 's', 'e'] rest
    else if c = '-' then (readNumber true rest).map fun r => (.number r.1, r.2)
    else if isDigit c then (readNumber false (c :: rest)).map fun r => (.number r.1, r.2)
    else if c = '"' then (readText [] rest).map fun r => (.string r.1, r.2)
    else if c = '[' then
      match levels with
      | 0 => failBehind .tooDeep (c :: rest)
      | inner + 1 =>
        (readItems (readValue inner) (rest.length + 1) [] rest).map fun r => (.array r.1, r.2)
    else if c = '\x7b' then
      match levels with
      | 0 => failBehind .tooDeep (c :: rest)
      | inner + 1 =>
        (readFields (readValue inner) (rest.length + 1) true [] rest).map
          fun r => (.object r.1, r.2)
    else failBehind .valueExpected (c :: rest)

/-! ## Documents -/

/-- How many containers may stand one in the other. -/
def nestingLimit : Nat := 127

/-- The line and the column of a place given by the bytes behind it. Lines count from one; a column
is the number of bytes since the start of the line. -/
def placeOf (text : List Char) (left : Nat) : Nat × Nat :=
  go (byteLength text - left) 1 0 text
where
  go : Nat → Nat → Nat → List Char → Nat × Nat
    | _, line, column, [] => (line, column)
    | before, line, column, c :: rest =>
      if before < c.utf8Size then (line, column + before)
      else if c = '\n' then go (before - 1) (line + 1) 0 rest
      else go (before - c.utf8Size) line (column + c.utf8Size) rest

/-- The message of a failure in a text. -/
def ParseFailure.message (text : List Char) (failure : ParseFailure) : String :=
  let place := placeOf text failure.left
  failure.cause.text ++ " at line " ++ naturalText place.1 ++ " column " ++ naturalText place.2

/-- Reads a text as one value with at most `levels` containers one in the other. -/
def parseWithin (levels : Nat) (text : String) : Except ParseFailure Json :=
  match readValue levels text.toList with
  | .error e => .error e
  | .ok (value, rest) =>
    match skipBlanks rest with
    | [] => .ok value
    | behind => failBehind .trailingCharacters behind

/-- Reads a text as one value; a failure is given by its message. -/
def parse (text : String) : Except String Json :=
  (parseWithin nestingLimit text).mapError (ParseFailure.message text.toList)

end Json

end ApiContract
