import ApiContract.Format.Network
import ApiContract.Text.Blank

/-!
# Mail addresses

`isMailAddress` accepts a local part, an at sign and a host. The local part is a list of words with
points between them, or any text in quotes; the host is a name or an address in brackets. A name may
stand before the address, which is then in angles.
-/

namespace ApiContract

/-- The characters of words in a local part. -/
def isWordSymbol (c : Char) : Bool :=
  decide (128 ≤ c.toNat) || c.isAlphanum || "!#$%&'*+-/=?^_`\x7b|\x7d~".toList.contains c

/-- Whether a text can stand between the quotes of a local part: a backslash stands before one more
visible character. -/
def isQuotedBody : List Char → Bool
  | [] => true
  | ['\\'] => false
  | '\\' :: c :: rest => 0x21 ≤ c.toNat && c.toNat ≤ 0x7E && isQuotedBody rest
  | c :: rest =>
    (c = ' ' || c = '\t' || c = '!' || (0x23 ≤ c.toNat && c.toNat ≤ 0x7E) ||
      decide (128 ≤ c.toNat)) && isQuotedBody rest

/-- Whether a text is a local part. -/
def isLocalPart (text : List Char) : Bool :=
  let bytes := text.foldl (fun n c => n + c.utf8Size) 0
  if text.isEmpty || 64 < bytes then false
  else if text.head? == some '"' && text.getLast? == some '"' then
    2 < text.length && isQuotedBody ((text.drop 1).dropLast)
  else (text.splitOn '.').all fun word => !word.isEmpty && word.all isWordSymbol

/-- Whether a text is a host, names being checked by `isName`. -/
def isMailHost (isName : List Char → Bool) (text : List Char) : Bool :=
  if text.head? == some '[' && text.getLast? == some ']' && 2 ≤ text.length then
    let inner := (text.drop 1).dropLast
    if "IPv6:".toList.isPrefixOf inner then isIpv6 (inner.drop 5) else isIpv4 inner
  else isName text

/-- Splits a text at the last place where a pattern stands, which is left out. -/
def splitLast? (pattern : List Char) (text : List Char) : Option (List Char × List Char) :=
  match text with
  | [] => none
  | c :: rest =>
    match splitLast? pattern rest with
    | some (before, after) => some (c :: before, after)
    | none =>
      if pattern.isPrefixOf (c :: rest) then some ([], (c :: rest).drop pattern.length) else none

/-- The address in angles behind a name, or the whole text; none if the closing angle is missing. -/
def bareAddress? (text : List Char) : Option (List Char) :=
  match splitLast? [' ', '<'] text with
  | none => some text
  | some (_, after) =>
    let body := trim after
    if body.getLast? == some '>' then some body.dropLast else none

/-- Whether a text is a mail address, host names being checked by `isName`. -/
def isMailAddress (isName : List Char → Bool) (text : List Char) : Bool :=
  match (bareAddress? text).bind (splitLast? ['@']) with
  | some (localPart, host) => isLocalPart localPart && isMailHost isName host
  | none => false

end ApiContract
