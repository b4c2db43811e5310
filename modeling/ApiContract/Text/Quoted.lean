import ApiContract.Text.Category

/-!
# Quoted text in messages

`quoted` writes a text between double quotes. The quote, the backslash and four controls have short
escapes; a character without a visible form of its own, or one that extends the character before
it, is written by its code point, as in `\u{301}`.
-/

namespace ApiContract

/-- A character as it stands in quoted text. -/
def quotedChar (c : Char) : List Char :=
  if c = '"' then ['\\', '"']
  else if c = '\\' then ['\\', '\\']
  else if c = '\n' then ['\\', 'n']
  else if c = '\r' then ['\\', 'r']
  else if c = '\t' then ['\\', 't']
  else if c.toNat = 0 then ['\\', '0']
  else if isExtending c || !isGraphic c then
    ['\\', 'u', '\x7b'] ++ Nat.toDigits 16 c.toNat ++ ['\x7d']
  else [c]

/-- A text between quotes, every character in a visible form. -/
def quoted (text : String) : String :=
  String.ofList ('"' :: (text.toList.flatMap quotedChar ++ ['"']))

end ApiContract
