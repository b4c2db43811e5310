import ApiContract.Yaml.Source

/-!
# Scalars

A scalar is a text in one of five styles: plain, between single or double quotes, or a block of lines that
are kept or folded. A line break inside a plain or quoted scalar counts as a space, and each further one
as a newline.

* `Gap`: what stands between two words of a scalar, with `Gap.text`.
* `readPlain`, `readSingleQuoted`, `readDoubleQuoted`, `readBlock`: the scalars of each style.
-/

namespace ApiContract.Yaml

/-- What was read, and what follows it. -/
structure Read (α : Type) where
  value : α
  rest : List Spot

/-- The outcome of reading; a failure is told in words. -/
abbrev Outcome (α : Type) := Except String α

/-! ## Gaps between words -/

/-- What stands between two words of a scalar. -/
inductive Gap where
  /-- Spaces and tabs, the last one first. -/
  | blanks (chars : List Char)
  /-- A first line break, unless it was escaped, and further ones, the last one first. -/
  | breaks (first : Option Char) (more : List Char)

namespace Gap

/-- No gap. -/
def none : Gap := blanks []

/-- Whether a gap holds a line break. -/
def hasBreak : Gap → Bool
  | blanks _ => false
  | breaks _ _ => true

/-- A gap and one more space, tab or line break. Blanks next to a line break do not count. -/
def add (c : Char) : Gap → Gap
  | blanks chars => if isBreak c then breaks (some c) [] else blanks (c :: chars)
  | breaks first more => if isBreak c then breaks first (c :: more) else breaks first more

/-- What a gap means, the last character first. -/
def text : Gap → List Char
  | blanks chars => chars
  | breaks (some '\n') [] => [' ']
  | breaks (some '\n') more => more
  | breaks first more => more ++ first.toList

end Gap

/-! ## Plain scalars -/

/-- A plain scalar, and whether it was left behind a line break. -/
structure Plain where
  text : List Char
  brokeLine : Bool

/-- Whether a character ends a plain scalar, among the brackets of a flow collection or outside. -/
def endsPlain (inFlow : Bool) (c : Char) (next : Option Char) : Bool :=
  (c = ':' && endsWord next) || (inFlow && [',', '[', ']', '\x7b', '\x7d'].contains c)

/-- Whether a colon stands before a bracket, where it cannot be told what it means. -/
def isAmbiguousColon (inFlow : Bool) (c : Char) (next : Option Char) : Bool :=
  inFlow && c = ':' &&
    match next with
    | some d => [',', '?', '[', ']', '\x7b', '\x7d'].contains d
    | none => false

/-- Reads a plain scalar on. `indent` is the least column of its lines, `read` holds what was read, the
last character first, and `gap` what was read behind it; `start` says that a word may start here. -/
def readPlainFrom (inFlow : Bool) (indent : Int) (read : List Char) (gap : Gap) (start : Bool) :
    List Spot → Outcome (Read Plain)
  | [] => .ok ⟨⟨read.reverse, gap.hasBreak⟩, []⟩
  | s :: rest =>
    let done : Outcome (Read Plain) := .ok ⟨⟨read.reverse, gap.hasBreak⟩, s :: rest⟩
    if isGap s.char || isBreak s.char then
      if gap.hasBreak && s.char = '\t' && decide ((s.column : Int) < indent) then
        .error "a tab cannot be used for indentation"
      else readPlainFrom inFlow indent read (gap.add s.char) true rest
    else if start && !inFlow && decide ((s.column : Int) < indent) then done
    else if start && (isDocumentMarker (s :: rest) || s.char = '#') then done
    else if isAmbiguousColon inFlow s.char (peek rest) then .error "unexpected colon"
    else if endsPlain inFlow s.char (peek rest) then done
    else readPlainFrom inFlow indent (s.char :: (gap.text ++ read)) .none false rest

/-- Reads a plain scalar. -/
def readPlain (inFlow : Bool) (indent : Int) (spots : List Spot) : Outcome (Read Plain) :=
  readPlainFrom inFlow indent [] .none false spots

/-! ## Quoted scalars -/

/-- Reads a scalar behind its single quote on; a quote inside it is written twice. -/
def readSingleFrom (read : List Char) (gap : Gap) : List Spot → Outcome (Read (List Char))
  | [] => .error "a quoted scalar does not end"
  | s :: rest =>
    if isDocumentMarker (s :: rest) then .error "a document ends inside a quoted scalar"
    else if isGap s.char || isBreak s.char then readSingleFrom read (gap.add s.char) rest
    else if s.char = '\'' then
      match rest with
      | t :: more =>
        if t.char = '\'' then readSingleFrom ('\'' :: (gap.text ++ read)) .none more
        else .ok ⟨(gap.text ++ read).reverse, rest⟩
      | [] => .ok ⟨(gap.text ++ read).reverse, []⟩
    else readSingleFrom (s.char :: (gap.text ++ read)) .none rest

def readSingleQuoted (spots : List Spot) : Outcome (Read (List Char)) :=
  readSingleFrom [] .none spots

/-- The character that an escape of one letter stands for. -/
def escapedChar? (c : Char) : Option Char :=
  match c with
  | '0' => some (Char.ofNat 0)
  | 'a' => some (Char.ofNat 7)
  | 'b' => some (Char.ofNat 8)
  | 't' | '\t' => some '\t'
  | 'n' => some '\n'
  | 'v' => some (Char.ofNat 0x0B)
  | 'f' => some (Char.ofNat 0x0C)
  | 'r' => some '\r'
  | 'e' => some (Char.ofNat 0x1B)
  | ' ' => some ' '
  | '"' => some '"'
  | '/' => some '/'
  | '\\' => some '\\'
  | 'N' => some (Char.ofNat 0x85)
  | '_' => some (Char.ofNat 0xA0)
  | 'L' => some (Char.ofNat 0x2028)
  | 'P' => some (Char.ofNat 0x2029)
  | _ => none

/-- How many hexadecimal digits an escape has behind its letter. -/
def escapeLength (c : Char) : Nat :=
  match c with
  | 'x' => 2
  | 'u' => 4
  | 'U' => 8
  | _ => 0

/-- The character of a code point, if there is one. -/
def charOfCode? (n : Nat) : Option Char :=
  if (0xD800 ≤ n && n ≤ 0xDFFF) || 0x10FFFF < n then none else some (Char.ofNat n)

/-- The character that an escape with hexadecimal digits stands for. -/
def hexEscape? (length : Nat) (spots : List Spot) : Option Char :=
  let digits := (spots.take length).map (·.char)
  if digits.length = length then (digitsValue? 16 0 digits).bind charOfCode? else none

/-- Reads a scalar behind its double quote on. -/
def readDoubleFrom (read : List Char) (gap : Gap) (spots : List Spot) : Outcome (Read (List Char)) :=
  match spots with
  | [] => .error "a quoted scalar does not end"
  | s :: rest =>
    if isDocumentMarker (s :: rest) then .error "a document ends inside a quoted scalar"
    else if isGap s.char || isBreak s.char then readDoubleFrom read (gap.add s.char) rest
    else if s.char = '"' then .ok ⟨(gap.text ++ read).reverse, rest⟩
    else if s.char = '\\' then
      match rest with
      | [] => .error "a quoted scalar does not end"
      | e :: more =>
        if isBreak e.char then readDoubleFrom (gap.text ++ read) (.breaks none []) more
        else
          let length := escapeLength e.char
          match if length = 0 then escapedChar? e.char else hexEscape? length more with
          | some c => readDoubleFrom (c :: (gap.text ++ read)) .none (more.drop length)
          | none => .error "an unknown escape in a quoted scalar"
    else readDoubleFrom (s.char :: (gap.text ++ read)) .none rest
termination_by spots.length
decreasing_by all_goals (simp; try omega)

def readDoubleQuoted (spots : List Spot) : Outcome (Read (List Char)) :=
  readDoubleFrom [] .none spots

/-! ## Block scalars -/

/-- What becomes of the line breaks at the end of a block. -/
inductive Chomping where
  /-- None is kept. -/
  | strip
  /-- One is kept. -/
  | clip
  /-- All are kept. -/
  | keep
deriving DecidableEq, Repr

/-- What the first line of a block says: how it ends, and how far it is indented. -/
structure BlockHeader where
  chomping : Chomping
  indentation : Option Nat

/-- How a block ends, as it is written. -/
def chompingOf? (c : Char) : Option Chomping :=
  if c = '+' then some .keep else if c = '-' then some .strip else none

/-- The indentation of a block, as it is written. -/
def indentationOf? (c : Char) : Option Nat :=
  if isDigit c then some (c.toNat - 48) else none

/-- Reads the signs of the first line of a block: at most one of each kind, in any order. -/
def readSigns (spots : List Spot) : Read BlockHeader :=
  match spots with
  | [] => ⟨⟨.clip, none⟩, []⟩
  | s :: rest =>
    match chompingOf? s.char, indentationOf? s.char with
    | some chomping, _ =>
      match (peek rest).bind indentationOf? with
      | some n => ⟨⟨chomping, some n⟩, rest.drop 1⟩
      | none => ⟨⟨chomping, none⟩, rest⟩
    | none, some n =>
      match (peek rest).bind chompingOf? with
      | some chomping => ⟨⟨chomping, some n⟩, rest.drop 1⟩
      | none => ⟨⟨.clip, some n⟩, rest⟩
    | none, none => ⟨⟨.clip, none⟩, spots⟩

/-- Reads the first line of a block. A comment may stand on it. -/
def readBlockHeader (spots : List Spot) : Outcome (Read BlockHeader) :=
  let signs := readSigns spots
  if signs.value.indentation = some 0 then .error "a block cannot be indented by nothing"
  else
    let rest := skipGaps signs.rest
    let rest := if peek rest = some '#' then skipLine rest else rest
    match rest with
    | [] => .ok ⟨signs.value, []⟩
    | s :: more =>
      if isBreak s.char then .ok ⟨signs.value, more⟩ else .error "text behind the sign of a block"

/-- The spots behind the spaces that indent a line; all spaces if the indentation is not known. -/
def skipIndent (indent : Nat) (spots : List Spot) : List Spot :=
  spots.dropWhile fun s => s.char = ' ' && (indent == 0 || decide (s.column < indent))

theorem length_skipIndent_le (indent : Nat) (spots : List Spot) :
    (skipIndent indent spots).length ≤ spots.length := (List.dropWhile_suffix _).length_le

/-- Empty lines: their breaks, the last one first, and the greatest column reached. -/
structure EmptyLines where
  breaks : List Char
  widest : Nat

/-- Reads the empty lines before a line of a block, up to the text of that line. -/
def readEmptyLines (indent : Nat) (lines : EmptyLines) (spots : List Spot) :
    Outcome (Read EmptyLines) :=
  match _h : skipIndent indent spots with
  | [] => .ok ⟨lines, []⟩
  | s :: rest =>
    let widest := max lines.widest s.column
    if s.char = '\t' && (indent == 0 || decide (s.column < indent)) then
      .error "a tab cannot be used for indentation"
    else if isBreak s.char then readEmptyLines indent ⟨s.char :: lines.breaks, widest⟩ rest
    else .ok ⟨⟨lines.breaks, widest⟩, s :: rest⟩
termination_by spots.length
decreasing_by
  have := length_skipIndent_le indent spots
  rw [_h] at this
  simp at this
  omega

/-- The lines of a block that were read: the text, the last line break behind it and further ones, the
last one first each, and whether the last line starts with a blank. -/
structure BlockText where
  read : List Char
  lastBreak : Option Char
  emptyBreaks : List Char
  startsBlank : Bool

namespace BlockText

/-- What stands between the last line and the next one. In folded text one line break becomes a space,
unless one of the two lines starts with a blank. -/
def separator (folded : Bool) (block : BlockText) (nextBlank : Bool) : List Char :=
  if folded && block.lastBreak == some '\n' && !block.startsBlank && !nextBlank then
    if block.emptyBreaks.isEmpty then [' '] else block.emptyBreaks
  else block.emptyBreaks ++ block.lastBreak.toList

/-- The text with its end as it should be. -/
def finish (chomping : Chomping) (block : BlockText) : List Char :=
  match chomping with
  | .strip => block.read.reverse
  | .clip => (block.lastBreak.toList ++ block.read).reverse
  | .keep => (block.emptyBreaks ++ block.lastBreak.toList ++ block.read).reverse

end BlockText

/-- Reads the lines of a block, each at its indentation. The number bounds the lines. -/
def readBlockLines (folded : Bool) (indent : Nat) :
    Nat → BlockText → List Spot → Outcome (Read BlockText)
  | 0, block, spots => .ok ⟨block, spots⟩
  | _, block, [] => .ok ⟨block, []⟩
  | lines + 1, block, s :: rest =>
    if s.column ≠ indent then .ok ⟨block, s :: rest⟩
    else
      let blank := isGap s.char
      let line := ((s :: rest).takeWhile fun t => !isBreak t.char).map (·.char)
      let read := line.reverse ++ (block.separator folded blank ++ block.read)
      let behind := skipLine (s :: rest)
      match readEmptyLines indent ⟨[], 0⟩ (behind.drop 1) with
      | .error e => .error e
      | .ok empty =>
        readBlockLines folded indent lines ⟨read, peek behind, empty.value.breaks, blank⟩ empty.rest

/-- Reads a block behind its sign; `parent` is the column of the collection that holds it. -/
def readBlock (folded : Bool) (parent : Int) (spots : List Spot) : Outcome (Read (List Char)) := do
  let header ← readBlockHeader spots
  let outer := parent.toNat
  let given := match header.value.indentation with
    | some n => outer + n
    | none => 0
  let empty ← readEmptyLines given ⟨[], 0⟩ header.rest
  let indent := if given = 0 then max (max empty.value.widest (parent + 1).toNat) 1 else given
  let block ← readBlockLines folded indent (empty.rest.length + 1)
    ⟨[], none, empty.value.breaks, false⟩ empty.rest
  .ok ⟨block.value.finish header.value.chomping, block.rest⟩

end ApiContract.Yaml
