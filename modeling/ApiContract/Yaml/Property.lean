import ApiContract.Text.Utf8
import ApiContract.Yaml.Scalar

/-!
# Properties of nodes

In front of a node may stand an anchor, by which aliases refer to it, and a tag, which says what kind of
value it is. Directives at the start of a document give handles to long tags.

* `readAnchorName`: the name of an anchor or an alias.
* `Tag`, `readTag`: a tag, as a handle and what follows it.
* `Directive`, `readDirective`: what stands behind a percent sign.
-/

namespace ApiContract.Yaml

/-! ## Names -/

/-- Reads the characters of a name. -/
def readName (spots : List Spot) : Read String :=
  ⟨String.ofList ((spots.takeWhile fun s => isNameChar s.char).map (·.char)),
    spots.dropWhile fun s => isNameChar s.char⟩

/-- Reads the name of an anchor or an alias. -/
def readAnchorName (spots : List Spot) : Outcome (Read String) :=
  let name := readName spots
  let isEnd := match peek name.rest with
    | some c => endsWord (some c) || "?:,]\x7d%@`".toList.contains c
    | none => true
  if name.value.isEmpty || !isEnd then .error "a malformed name of an anchor" else .ok name

/-! ## Tags -/

/-- A tag: the handle that stands for its beginning, and the rest. Without a handle the rest is the
whole tag. -/
structure Tag where
  handle : String
  suffix : String
deriving DecidableEq, Repr

/-- Whether a character may stand in a tag; `verbatim` tags may hold some more. -/
def isTagChar (verbatim : Bool) (c : Char) : Bool :=
  isNameChar c || ";/?:@&=+$.%!~*'()".toList.contains c || (verbatim && ",[]".toList.contains c)

/-- Whether every percent sign stands before two hexadecimal digits. -/
def areEscapesWhole : List Char → Bool
  | [] => true
  | '%' :: a :: b :: rest =>
    (digitsValue? 16 0 [a, b]).isSome && areEscapesWhole (a :: b :: rest)
  | c :: rest => c != '%' && areEscapesWhole rest

/-- Reads the characters of a tag, whose encoded bytes have to form a text. -/
def readTagText (verbatim : Bool) (spots : List Spot) : Outcome (Read String) :=
  let chars := (spots.takeWhile fun s => isTagChar verbatim s.char).map (·.char)
  let bytes := percentBytes false chars
  if areEscapesWhole chars && isUtf8 bytes then
    .ok ⟨String.ofList (utf8Decode bytes), spots.dropWhile fun s => isTagChar verbatim s.char⟩
  else .error "a malformed escape in a tag"

/-- Reads the characters of a tag, of which there has to be one. -/
def readSomeTagText (verbatim : Bool) (spots : List Spot) : Outcome (Read String) := do
  let text ← readTagText verbatim spots
  if text.rest.length = spots.length then .error "an empty tag" else .ok text

/-- Reads a tag between angle brackets. -/
def readVerbatimTag (spots : List Spot) : Outcome (Read Tag) := do
  let text ← readSomeTagText true spots
  if peek text.rest = some '>' then .ok ⟨⟨"", text.value⟩, text.rest.drop 1⟩
  else .error "a tag without its end"

/-- Reads a tag with a handle; an exclamation mark alone is the tag that says nothing. -/
def readShortTag (spots : List Spot) : Outcome (Read Tag) := do
  let name := readName spots
  if peek name.rest = some '!' then
    let text ← readSomeTagText false (name.rest.drop 1)
    .ok ⟨⟨"!" ++ name.value ++ "!", text.value⟩, text.rest⟩
  else
    let text ← readTagText false name.rest
    let suffix := name.value ++ text.value
    .ok ⟨if suffix.isEmpty then ⟨"", "!"⟩ else ⟨"!", suffix⟩, text.rest⟩

/-- Reads a tag behind its exclamation mark. -/
def readTag (inFlow : Bool) (spots : List Spot) : Outcome (Read Tag) := do
  let tag ←
    if peek spots = some '<' then readVerbatimTag (spots.drop 1) else readShortTag spots
  let next := peek tag.rest
  if endsWord next || (inFlow && next = some ',') then .ok tag else .error "text behind a tag"

/-! ## Directives -/

/-- What a line with a percent sign says. -/
inductive Directive where
  | version (major minor : Nat)
  | handle (name meaning : String)
deriving DecidableEq, Repr

/-- Reads a number of at most nine digits. -/
def readVersionNumber (spots : List Spot) : Outcome (Read Nat) :=
  let digits := (spots.takeWhile fun s => isDigit s.char).map (·.char)
  if digits.isEmpty || 9 < digits.length then .error "a malformed version"
  else .ok ⟨decimalValue digits, spots.dropWhile fun s => isDigit s.char⟩

/-- Reads the version of the language. -/
def readVersion (spots : List Spot) : Outcome (Read Directive) := do
  let major ← readVersionNumber (skipGaps spots)
  if peek major.rest = some '.' then
    let minor ← readVersionNumber (major.rest.drop 1)
    .ok ⟨.version major.value minor.value, minor.rest⟩
  else .error "a malformed version"

/-- Reads a handle and what it stands for. -/
def readHandle (spots : List Spot) : Outcome (Read Directive) := do
  let start := skipGaps spots
  let name := readName (start.drop 1)
  let isClosed := peek name.rest = some '!'
  let behind := if isClosed then name.rest.drop 1 else name.rest
  if peek start ≠ some '!' || (!isClosed && !name.value.isEmpty) then .error "a malformed handle"
  else if !((peek behind).any isGap) then .error "a handle without a meaning"
  else
    let meaning ← readSomeTagText true (skipGaps behind)
    if endsWord (peek meaning.rest) then
      .ok ⟨.handle ("!" ++ name.value ++ (if isClosed then "!" else "")) meaning.value, meaning.rest⟩
    else .error "text behind a handle"

/-- Reads a directive behind its percent sign, up to the end of the line. -/
def readDirective (spots : List Spot) : Outcome (Read Directive) := do
  let name := readName spots
  let directive ←
    if !endsWord (peek name.rest) then .error "a malformed directive"
    else if name.value = "YAML" then readVersion name.rest
    else if name.value = "TAG" then readHandle name.rest
    else .error "an unknown directive"
  let rest := skipGaps directive.rest
  let behind := if peek rest = some '#' then skipLine rest else rest
  match behind with
  | [] => .ok ⟨directive.value, []⟩
  | s :: more => if isBreak s.char then .ok ⟨directive.value, more⟩ else .error "text behind a directive"

end ApiContract.Yaml
