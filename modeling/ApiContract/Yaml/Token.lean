import ApiContract.Yaml.Property

/-!
# Tokens

A text is a list of tokens. Indentation and line breaks count for them: collections outside of brackets
begin and end where the indentation changes, and what stands before a colon on its line is a key.

A colon tells only afterwards that something was a key. So wherever a key may start its place among the
tokens is noted, and the token for the key is put there when the colon comes.

* `Token`: the tokens.
* `Lexer`: the state of reading, with an operation for each kind of token.
* `tokensOf`: the tokens of a text.
-/

namespace ApiContract.Yaml

inductive Token where
  | directive (directive : Directive)
  | documentStart
  | documentEnd
  | blockSequenceStart
  | blockMappingStart
  /-- The end of a collection without brackets. -/
  | blockEnd
  | flowSequenceStart
  | flowSequenceEnd
  | flowMappingStart
  | flowMappingEnd
  /-- A hyphen before an item. -/
  | blockEntry
  /-- A comma. -/
  | flowEntry
  | key
  | value
  | alias (name : String)
  | anchor (name : String)
  | tag (tag : Tag)
  | scalar (isPlain : Bool) (text : String)
deriving DecidableEq, Repr

/-- A place at which a key may have started. -/
structure PossibleKey where
  /-- Whether nothing but a key may stand there. -/
  required : Bool
  /-- How many tokens stand before it. -/
  place : Nat
  spot : Spot

/-- The state of reading tokens. -/
structure Lexer where
  rest : List Spot
  /-- The tokens read, the last one first. -/
  tokens : List Token
  /-- The column of the innermost collection without brackets; -1 outside of all. -/
  indent : Int
  /-- The columns of the collections around it, the innermost one first. -/
  outer : List Int
  /-- Whether a key may start here. -/
  keyAllowed : Bool
  /-- Where a key may have started, outside of brackets and then inside of each pair, the innermost
  one first. -/
  keys : List (Option PossibleKey)

namespace Lexer

def start (spots : List Spot) : Lexer := ⟨spots, [], -1, [], true, [none]⟩

/-- Whether the text stands between brackets. -/
def inFlow (lexer : Lexer) : Bool := decide (1 < lexer.keys.length)

def push (token : Token) (lexer : Lexer) : Lexer := { lexer with tokens := token :: lexer.tokens }

/-- Puts a token behind a number of others. -/
def insertAt (place : Nat) (token : Token) (lexer : Lexer) : Lexer :=
  let behind := lexer.tokens.length - place
  { lexer with tokens := lexer.tokens.take behind ++ token :: lexer.tokens.drop behind }

/-! ## Blanks and comments -/

/-- The spots from the next token on, and whether a key may start there: it may on a new line. Tabs may
not stand where a key may start. -/
def skipBlanks (inFlow keyAllowed inComment : Bool) : List Spot → Bool × List Spot
  | [] => (keyAllowed, [])
  | s :: rest =>
    if isBreak s.char then skipBlanks inFlow (keyAllowed || !inFlow) false rest
    else if inComment then skipBlanks inFlow keyAllowed true rest
    else if s.char = ' ' || (s.char = '\t' && (inFlow || !keyAllowed)) ||
        (s.column = 0 && s.char.toNat = 0xFEFF) then
      skipBlanks inFlow keyAllowed false rest
    else if s.char = '#' then skipBlanks inFlow keyAllowed true rest
    else (keyAllowed, s :: rest)

def skip (lexer : Lexer) : Lexer :=
  let next := skipBlanks lexer.inFlow lexer.keyAllowed false lexer.rest
  { lexer with rest := next.2, keyAllowed := next.1 }

/-! ## Indentation -/

/-- Ends the collections that are indented further than a column. -/
def closeTo (column indent : Int) : List Int → List Token → Int × List Int × List Token
  | [], tokens => (indent, [], tokens)
  | next :: outer, tokens =>
    if column < indent then closeTo column next outer (.blockEnd :: tokens)
    else (indent, next :: outer, tokens)

def unroll (column : Int) (lexer : Lexer) : Lexer :=
  if lexer.inFlow then lexer
  else
    let closed := closeTo column lexer.indent lexer.outer lexer.tokens
    { lexer with indent := closed.1, outer := closed.2.1, tokens := closed.2.2 }

/-- Starts a collection at a column, behind a number of tokens, unless there is one already. -/
def roll (column : Nat) (place : Nat) (token : Token) (lexer : Lexer) : Lexer :=
  if !lexer.inFlow && decide (lexer.indent < column) then
    { lexer.insertAt place token with indent := column, outer := lexer.indent :: lexer.outer }
  else lexer

/-- Starts a collection at a spot, behind all tokens. -/
def rollHere (spot : Spot) (token : Token) (lexer : Lexer) : Lexer :=
  lexer.roll spot.column lexer.tokens.length token

/-! ## Keys -/

/-- Notes what may be a key; what was required to be one has to be. -/
def setKey (possible : Option PossibleKey) (lexer : Lexer) : Outcome Lexer :=
  match lexer.keys with
  | some key :: around =>
    if key.required then .error "a key without a colon"
    else .ok { lexer with keys := possible :: around }
  | _ :: around => .ok { lexer with keys := possible :: around }
  | [] => .ok lexer

def forgetKey (lexer : Lexer) : Outcome Lexer := lexer.setKey none

/-- Notes that a key may start at a spot, if it may. -/
def noteKey (spot : Spot) (lexer : Lexer) : Outcome Lexer :=
  if lexer.keyAllowed then
    lexer.setKey (some
      ⟨!lexer.inFlow && lexer.indent == (spot.column : Int), lexer.tokens.length, spot⟩)
  else .ok lexer

/-- Whether what started at a place can be a key when the colon stands at a spot: on the same line, not
too far away. -/
def PossibleKey.reaches (key : PossibleKey) (colon : Spot) : Bool :=
  key.spot.line == colon.line && decide (colon.index ≤ key.spot.index + 1024)

/-- The innermost place at which a key may have started. -/
def lastKey? (lexer : Lexer) : Option PossibleKey := (lexer.keys.head?).join

def dropKey (lexer : Lexer) : Lexer := { lexer with keys := none :: lexer.keys.drop 1 }

/-! ## Tokens -/

/-- A sign that stands between documents. -/
def documentSign (token : Token) (rest : List Spot) (lexer : Lexer) : Outcome Lexer := do
  let closed ← (lexer.unroll (-1)).forgetKey
  .ok { closed.push token with keyAllowed := false, rest }

def openBracket (spot : Spot) (token : Token) (rest : List Spot) (lexer : Lexer) :
    Outcome Lexer := do
  let noted ← lexer.noteKey spot
  .ok { noted.push token with keys := none :: noted.keys, keyAllowed := true, rest }

def closeBracket (token : Token) (rest : List Spot) (lexer : Lexer) : Outcome Lexer := do
  let closed ← lexer.forgetKey
  let keys := if closed.inFlow then closed.keys.drop 1 else closed.keys
  .ok { closed.push token with keys, keyAllowed := false, rest }

def comma (rest : List Spot) (lexer : Lexer) : Outcome Lexer := do
  let next ← lexer.forgetKey
  .ok { next.push .flowEntry with keyAllowed := true, rest }

def hyphen (spot : Spot) (rest : List Spot) (lexer : Lexer) : Outcome Lexer := do
  if !lexer.inFlow && !lexer.keyAllowed then .error "an item cannot start here"
  else
    let next ← (lexer.rollHere spot .blockSequenceStart).forgetKey
    .ok { next.push .blockEntry with keyAllowed := true, rest }

def questionMark (spot : Spot) (rest : List Spot) (lexer : Lexer) : Outcome Lexer := do
  if !lexer.inFlow && !lexer.keyAllowed then .error "a key cannot start here"
  else
    let next ← (lexer.rollHere spot .blockMappingStart).forgetKey
    .ok { next.push .key with keyAllowed := !lexer.inFlow, rest }

/-- A colon behind what turns out to be a key. -/
def colonAfterKey (key : PossibleKey) (rest : List Spot) (lexer : Lexer) : Lexer :=
  let keyed := (lexer.insertAt key.place .key).roll key.spot.column key.place .blockMappingStart
  { (keyed.push .value).dropKey with keyAllowed := false, rest }

/-- A colon on its own. -/
def colonAlone (spot : Spot) (rest : List Spot) (lexer : Lexer) : Outcome Lexer :=
  if !lexer.inFlow && !lexer.keyAllowed then .error "a value cannot start here"
  else
    let rolled := lexer.rollHere spot .blockMappingStart
    .ok { (rolled.push .value).dropKey with keyAllowed := !lexer.inFlow, rest }

def colon (spot : Spot) (rest : List Spot) (lexer : Lexer) : Outcome Lexer :=
  match lexer.lastKey? with
  | none => lexer.colonAlone spot rest
  | some key =>
    if PossibleKey.reaches key spot then .ok (lexer.colonAfterKey key rest)
    else if key.required then .error "a key without a colon"
    else lexer.colonAlone spot rest

/-- A token that may start a key. -/
def keyStart (spot : Spot) (token : Token) (keyAllowed : Bool) (rest : List Spot) (lexer : Lexer) :
    Outcome Lexer := do
  let noted ← lexer.noteKey spot
  .ok { noted.push token with keyAllowed, rest }

def block (folded : Bool) (rest : List Spot) (lexer : Lexer) : Outcome Lexer := do
  let next ← lexer.forgetKey
  let text ← readBlock folded lexer.indent rest
  .ok { next.push (.scalar false (String.ofList text.value)) with
        keyAllowed := true, rest := text.rest }

def plain (spot : Spot) (rest : List Spot) (lexer : Lexer) : Outcome Lexer := do
  let text ← readPlain lexer.inFlow (lexer.indent + 1) (spot :: rest)
  lexer.keyStart spot (.scalar true (String.ofList text.value.text)) text.value.brokeLine text.rest

/-- The characters that cannot start a plain scalar, or only before another character. -/
def indicators : List Char := "-?:,[]\x7b\x7d#&*!|>'\"%@`".toList

/-- Whether a plain scalar starts at a character. -/
def startsPlain (inFlow : Bool) (c : Char) (next : Option Char) : Bool :=
  (!endsWord (some c) && !indicators.contains c) || (c = '-' && !next.any isGap) ||
    (!inFlow && (c = '?' || c = ':') && !endsWord next)

/-- Whether a sign stands for itself: inside of brackets always, else before the end of a word. -/
def isSign (lexer : Lexer) (next : Option Char) : Bool := lexer.inFlow || endsWord next

/-- Reads the token at a spot. -/
def token (spot : Spot) (rest : List Spot) (lexer : Lexer) : Outcome Lexer :=
  let next := peek rest
  if spot.column = 0 && spot.char = '%' then do
    let directive ← readDirective rest
    lexer.documentSign (.directive directive.value) directive.rest
  else if isMarker "---" (spot :: rest) then lexer.documentSign .documentStart (rest.drop 2)
  else if isMarker "..." (spot :: rest) then lexer.documentSign .documentEnd (rest.drop 2)
  else
    match spot.char with
    | '[' => lexer.openBracket spot .flowSequenceStart rest
    | '\x7b' => lexer.openBracket spot .flowMappingStart rest
    | ']' => lexer.closeBracket .flowSequenceEnd rest
    | '\x7d' => lexer.closeBracket .flowMappingEnd rest
    | ',' => lexer.comma rest
    | '*' => do
      let name ← readAnchorName rest
      lexer.keyStart spot (.alias name.value) false name.rest
    | '&' => do
      let name ← readAnchorName rest
      lexer.keyStart spot (.anchor name.value) false name.rest
    | '!' => do
      let tag ← readTag lexer.inFlow rest
      lexer.keyStart spot (.tag tag.value) false tag.rest
    | '\'' => do
      let text ← readSingleQuoted rest
      lexer.keyStart spot (.scalar false (String.ofList text.value)) false text.rest
    | '"' => do
      let text ← readDoubleQuoted rest
      lexer.keyStart spot (.scalar false (String.ofList text.value)) false text.rest
    | c =>
      if c = '-' && endsWord next then lexer.hyphen spot rest
      else if c = '?' && lexer.isSign next then lexer.questionMark spot rest
      else if c = ':' && lexer.isSign next then lexer.colon spot rest
      else if (c = '|' || c = '>') && !lexer.inFlow then lexer.block (c = '>') rest
      else if startsPlain lexer.inFlow c next then lexer.plain spot rest
      else .error "a character that cannot start anything"

/-- The tokens read, in their order, once the text has ended. -/
def finish (lexer : Lexer) : Outcome (List Token) := do
  let closed ← (lexer.unroll (-1)).forgetKey
  .ok closed.tokens.reverse

/-- Reads all tokens. Every token takes a character at least, which the number counts. -/
def run : Nat → Lexer → Outcome (List Token)
  | 0, lexer => lexer.finish
  | limit + 1, lexer =>
    let next := lexer.skip
    match next.rest with
    | [] => next.finish
    | spot :: rest =>
      match (next.unroll spot.column).token spot rest with
      | .error e => .error e
      | .ok read => run limit read

end Lexer

/-- The characters of a text behind the mark of its byte order. -/
def sourceOf (text : String) : String :=
  match text.toList with
  | c :: rest => if c.toNat = 0xFEFF then String.ofList rest else text
  | [] => text

/-- The tokens of a text. -/
def tokensOf (text : String) : Outcome (List Token) :=
  if text.toList.all isAllowed then
    let spots := spotsOf (sourceOf text)
    Lexer.run (spots.length + 1) (Lexer.start spots)
  else .error "a control character"

end ApiContract.Yaml
