import ApiContract.Json.Basic

/-!
# Written JSON

* `Json.compact`: on one line, without blanks.
* `Json.pretty`: two blanks per level, one item a line; an empty container stays on its line.
-/

namespace ApiContract

namespace Json

/-- A character as it stands between quotes. -/
def escapeChar (c : Char) : List Char :=
  if c = '"' then ['\\', '"']
  else if c = '\\' then ['\\', '\\']
  else if c = '\n' then ['\\', 'n']
  else if c = '\r' then ['\\', 'r']
  else if c = '\t' then ['\\', 't']
  else if c.toNat = 8 then ['\\', 'b']
  else if c.toNat = 12 then ['\\', 'f']
  else if c.toNat < 0x20 then
    ['\\', 'u', '0', '0'] ++ (if c.toNat < 16 then ['0'] else []) ++ Nat.toDigits 16 c.toNat
  else [c]

/-- A text between quotes. -/
def quoteText (text : String) : String :=
  String.ofList ('"' :: (text.toList.flatMap escapeChar ++ ['"']))

/-! ## On one line -/

mutual

/-- A value without blanks. -/
def compact : Json → String
  | null => "null"
  | bool true => "true"
  | bool false => "false"
  | number n => n.text
  | string s => quoteText s
  | array [] => "[]"
  | array (first :: rest) => "[" ++ compact first ++ compactItems rest ++ "]"
  | object [] => "\x7b\x7d"
  | object ((key, value) :: rest) =>
    "\x7b" ++ quoteText key ++ ":" ++ compact value ++ compactFields rest ++ "\x7d"

/-- The items after the first one. -/
def compactItems : List Json → String
  | [] => ""
  | item :: rest => "," ++ compact item ++ compactItems rest

/-- The fields after the first one. -/
def compactFields : Fields → String
  | [] => ""
  | (key, value) :: rest =>
    "," ++ quoteText key ++ ":" ++ compact value ++ compactFields rest

end

/-! ## Indented -/

/-- The end of a line and the indentation of the next one. -/
def newline (depth : Nat) : String := String.ofList ('\n' :: List.replicate (2 * depth) ' ')

mutual

/-- A value whose first line starts at some depth. -/
def prettyAt (depth : Nat) : Json → String
  | null => "null"
  | bool true => "true"
  | bool false => "false"
  | number n => n.text
  | string s => quoteText s
  | array [] => "[]"
  | array (first :: rest) =>
    "[" ++ newline (depth + 1) ++ prettyAt (depth + 1) first ++ prettyItems depth rest
      ++ newline depth ++ "]"
  | object [] => "\x7b\x7d"
  | object ((key, value) :: rest) =>
    "\x7b" ++ newline (depth + 1) ++ quoteText key ++ ": " ++ prettyAt (depth + 1) value
      ++ prettyFields depth rest ++ newline depth ++ "\x7d"

/-- The items after the first one of an array at some depth. -/
def prettyItems (depth : Nat) : List Json → String
  | [] => ""
  | item :: rest =>
    "," ++ newline (depth + 1) ++ prettyAt (depth + 1) item ++ prettyItems depth rest

/-- The fields after the first one of an object at some depth. -/
def prettyFields (depth : Nat) : Fields → String
  | [] => ""
  | (key, value) :: rest =>
    "," ++ newline (depth + 1) ++ quoteText key ++ ": " ++ prettyAt (depth + 1) value
      ++ prettyFields depth rest

end

/-- An indented value. -/
def pretty (value : Json) : String := prettyAt 0 value

end Json

end ApiContract
