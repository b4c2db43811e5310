import ApiContract.Format.Network

/-!
# Resource identifiers

The general syntax of identifiers and of references relative to them.

* `Uri.split`: the scheme, authority, path, query and fragment of a text.
* `isUri`, `isUriReference`: an identifier has a scheme, a reference may lack it. With `wide`, letters of
  all alphabets may stand where those of ASCII may.
-/

namespace ApiContract

namespace Uri

/-- The parts of a reference. -/
structure Parts where
  scheme : Option (List Char)
  authority : Option (List Char)
  path : List Char
  query : Option (List Char)
  fragment : Option (List Char)
deriving DecidableEq, Repr

/-- The text before the first of some characters, and the text from there on. -/
def breakAt (stops : List Char) (text : List Char) : List Char × List Char :=
  (text.takeWhile fun c => !stops.contains c, text.dropWhile fun c => !stops.contains c)

def isSchemeChar (c : Char) : Bool :=
  (decide (c.toNat < 128) && c.isAlphanum) || c = '+' || c = '-' || c = '.'

/-- Whether a text is a scheme. -/
def isScheme (text : List Char) : Bool :=
  match text with
  | [] => false
  | c :: rest => decide (c.toNat < 128) && c.isAlpha && rest.all isSchemeChar

/-- The parts of a text. What stands before a colon is the scheme only if it can be one. -/
def split (text : List Char) : Parts :=
  let head := breakAt [':', '/', '?', '#'] text
  let schemed : Option (List Char) × List Char :=
    match head.2 with
    | ':' :: rest => if isScheme head.1 then (some head.1, rest) else (none, text)
    | _ => (none, text)
  let authority : Option (List Char) × List Char :=
    match schemed.2 with
    | '/' :: '/' :: rest =>
      let parts := breakAt ['/', '?', '#'] rest
      (some parts.1, parts.2)
    | rest => (none, rest)
  let path := breakAt ['?', '#'] authority.2
  let query : Option (List Char) × List Char :=
    match path.2 with
    | '?' :: rest =>
      let parts := breakAt ['#'] rest
      (some parts.1, parts.2)
    | rest => (none, rest)
  let fragment := match query.2 with
    | '#' :: rest => some rest
    | _ => none
  ⟨schemed.1, authority.1, path.1, query.1, fragment⟩

/-! ## Characters -/

/-- Letters, digits and marks that need no encoding anywhere. -/
def isUnreserved (wide : Bool) (c : Char) : Bool :=
  let n := c.toNat
  if n < 128 then c.isAlphanum || c = '-' || c = '.' || c = '_' || c = '~'
  else
    wide &&
      ((0xA0 ≤ n && n ≤ 0xD7FF) || (0xF900 ≤ n && n ≤ 0xFDCF) || (0xFDF0 ≤ n && n ≤ 0xFFEF) ||
        (0x10000 ≤ n && n ≤ 0xEFFFD && n % 0x10000 ≤ 0xFFFD && !(0xE0000 ≤ n && n < 0xE1000)))

def isSubDelimiter (c : Char) : Bool := "!$&'()*+,;=".toList.contains c

/-- Whether every character of a text is of a kind or belongs to an encoded byte. -/
def areAll (kind : Char → Bool) : List Char → Bool
  | [] => true
  | '%' :: a :: b :: rest => isHexDigit a && isHexDigit b && areAll kind rest
  | c :: rest => c != '%' && kind c && areAll kind rest

def isNameChar (wide : Bool) (c : Char) : Bool := isUnreserved wide c || isSubDelimiter c

def isPathChar (wide : Bool) (c : Char) : Bool :=
  isNameChar wide c || c = ':' || c = '@' || c = '/'

/-- Private characters, which may stand in queries. -/
def isPrivate (c : Char) : Bool :=
  let n := c.toNat
  (0xE000 ≤ n && n ≤ 0xF8FF) || (0xF0000 ≤ n && n ≤ 0xFFFFD) || (0x100000 ≤ n && n ≤ 0x10FFFD)

def isQueryChar (wide : Bool) (c : Char) : Bool :=
  isPathChar wide c || c = '?' || (wide && isPrivate c)

def isFragmentChar (wide : Bool) (c : Char) : Bool := isPathChar wide c || c = '?'

/-! ## Parts -/

/-- Whether a text in brackets is an address: of version six, or of a later one. -/
def isBracketed (text : List Char) : Bool :=
  match text with
  | 'v' :: rest | 'V' :: rest =>
    let version := rest.takeWhile isHexDigit
    match rest.dropWhile isHexDigit with
    | '.' :: address =>
      !version.isEmpty && !address.isEmpty &&
        address.all fun c => isNameChar false c || c = ':'
    | _ => false
  | _ => isIpv6 text

/-- Whether a text is nothing, or a colon and digits. -/
def isColonNumber : List Char → Bool
  | [] => true
  | ':' :: digits => digits.all isDigit
  | _ => false

/-- Whether a text is a host, with a number behind a colon or without. -/
def isHostPart (wide : Bool) (text : List Char) : Bool :=
  match text with
  | '[' :: rest =>
    match rest.dropWhile (· ≠ ']') with
    | ']' :: behind => isBracketed (rest.takeWhile (· ≠ ']')) && isColonNumber behind
    | _ => false
  | _ =>
    areAll (isNameChar wide) (text.takeWhile (· ≠ ':')) && isColonNumber (text.dropWhile (· ≠ ':'))

/-- Whether a text is an authority: an optional user before an at sign, and a host. -/
def isAuthority (wide : Bool) (text : List Char) : Bool :=
  match text.dropWhile (· ≠ '@') with
  | [] => isHostPart wide text
  | _ :: host =>
    areAll (fun c => isNameChar wide c || c = ':') (text.takeWhile (· ≠ '@')) &&
      isHostPart wide host

/-- Whether the parts are well written. Without scheme and authority the first step of the path has no
colon; with an authority the path is absolute or empty. -/
def isWellWritten (wide : Bool) (parts : Parts) : Bool :=
  let firstStep := parts.path.takeWhile (· ≠ '/')
  parts.authority.all (isAuthority wide) &&
    areAll (isPathChar wide) parts.path &&
    parts.query.all (areAll (isQueryChar wide)) &&
    parts.fragment.all (areAll (isFragmentChar wide)) &&
    (parts.scheme.isSome || parts.authority.isSome || !firstStep.contains ':')

end Uri

/-- Whether a text is an identifier. -/
def isUri (wide : Bool) (text : List Char) : Bool :=
  let parts := Uri.split text
  parts.scheme.isSome && Uri.isWellWritten wide parts

/-- Whether a text is an identifier or a reference relative to one. -/
def isUriReference (wide : Bool) (text : List Char) : Bool :=
  Uri.isWellWritten wide (Uri.split text)

end ApiContract
