import ApiContract.Pattern.Matching
import ApiContract.Pattern.Property
import ApiContract.Text.Blank

/-!
# Reading patterns

`Pattern.parse?` reads a regular expression as the patterns of schemas are written. There are two
readings. The plain one has no conditions on the text around a place and no references back, and its
classes `\d`, `\w` and `\s` hold ASCII characters only. A text that cannot be read so is tried in the
extended reading, which has them, and whose classes hold the characters of all alphabets.

The reader goes from left to right. `Reader` is what it carries along: the text that is left, the
flags, and the groups so far.
-/

namespace ApiContract

namespace Pattern

/-! ## What is carried along -/

/-- Switches that change how what follows is read. -/
structure Flags where
  ignoreCase : Bool
  multiLine : Bool
  dotAll : Bool
  /-- Blanks and comments do not count. -/
  spaced : Bool
deriving Repr

/-- The state of reading. -/
structure Reader where
  rest : List Char
  flags : Flags
  groups : Nat
  names : List (String × Nat)
  extended : Bool

def Reader.drop (n : Nat) (r : Reader) : Reader := { r with rest := r.rest.drop n }

/-- What reading a part gives, if the part can be read. -/
abbrev Parsed (α : Type) := Option (α × Reader)

/-! ## Characters -/

/-- A set under the flags in force. -/
def underCase (flags : Flags) (set : CharSet) : CharSet :=
  if flags.ignoreCase then set.ignoringCase else set

/-- A character of a code in hexadecimal. -/
def charOfHex? (digits : List Char) : Option Char :=
  if digits.isEmpty then none
  else
    (digitsValue? 16 0 digits).bind fun n =>
      if n < 0xD800 || (0xDFFF < n && n < 0x110000) then some (Char.ofNat n) else none

/-- A code in hexadecimal behind its letter: a fixed number of digits, or any number in braces. -/
def hexEscape? (width : Nat) (rest : List Char) : Option (Char × List Char) :=
  match rest with
  | '\x7b' :: inner =>
    let digits := inner.takeWhile (· ≠ '\x7d')
    match inner.dropWhile (· ≠ '\x7d') with
    | [] => none
    | _ :: behind => (charOfHex? digits).map fun c => (c, behind)
  | _ =>
    if rest.length < width then none
    else (charOfHex? (rest.take width)).map fun c => (c, rest.drop width)

/-- Whether a character may stand behind a backslash for itself. -/
def isEscapable (c : Char) : Bool :=
  decide (c.toNat < 128) && !c.isAlphanum && c != '<' && c != '>'

/-- The character of an escape behind its backslash. -/
def charEscape? : List Char → Option (Char × List Char)
  | [] => none
  | c :: rest =>
    if c = 'n' then some ('\n', rest)
    else if c = 't' then some ('\t', rest)
    else if c = 'r' then some ('\r', rest)
    else if c = 'f' then some (Char.ofNat 12, rest)
    else if c = 'v' then some (Char.ofNat 11, rest)
    else if c = 'a' then some (Char.ofNat 7, rest)
    else if c = 'x' then hexEscape? 2 rest
    else if c = 'u' then hexEscape? 4 rest
    else if c = 'U' then hexEscape? 8 rest
    else if c = 'c' then
      match rest with
      | letter :: behind =>
        if letter.isAlpha then some (Char.ofNat (letter.toNat % 32), behind) else none
      | [] => none
    else if isEscapable c then some (c, rest)
    else none

/-- The property behind `\p` or `\P`: one letter, or a name in braces, a caret turning it round. -/
def propertyEscape? (positive : Bool) : List Char → Option (CharSet × List Char)
  | [] => none
  | '\x7b' :: inner =>
    let name := inner.takeWhile (· ≠ '\x7d')
    match inner.dropWhile (· ≠ '\x7d') with
    | [] => none
    | _ :: behind =>
      let negated := name.head? == some '^'
      (CharSet.ofProperty? (if negated then name.drop 1 else name)).map fun set =>
        (if negated == positive then .complement set else set, behind)
  | c :: rest =>
    (CharSet.ofPropertyName? (CharSet.plainName [c])).map fun set =>
      (if positive then set else .complement set, rest)

/-- The class of an escape behind its backslash. -/
def classEscape? (extended : Bool) : List Char → Option (CharSet × List Char)
  | [] => none
  | c :: rest =>
    let digit := if extended then CharSet.anyDigit else CharSet.asciiDigit
    let word := if extended then CharSet.anyWord else CharSet.asciiWord
    let blank := if extended then CharSet.anyBlank else CharSet.schemaBlank
    if c = 'd' then some (digit, rest)
    else if c = 'D' then some (.complement digit, rest)
    else if c = 'w' then some (word, rest)
    else if c = 'W' then some (.complement word, rest)
    else if c = 's' then some (blank, rest)
    else if c = 'S' then some (.complement blank, rest)
    else if c = 'p' then propertyEscape? true rest
    else if c = 'P' then propertyEscape? false rest
    else none

/-! ## Classes in brackets -/

/-- One end of a range, or a class of its own, within brackets. -/
def classAtom? (extended : Bool) : List Char → Option ((Char ⊕ CharSet) × List Char)
  | [] => none
  | '\\' :: rest =>
    match classEscape? extended rest with
    | some (set, behind) => some (.inr set, behind)
    | none => (charEscape? rest).map fun r => (.inl r.1, r.2)
  | c :: rest => some (.inl c, rest)

/-- A class with a name between colons, behind its bracket and colon. -/
def asciiClass? (text : List Char) : Option (CharSet × List Char) :=
  let negated := text.head? == some '^'
  let body := if negated then text.drop 1 else text
  let name := body.takeWhile (· ≠ ':')
  match body.dropWhile (· ≠ ':') with
  | ':' :: ']' :: behind =>
    (CharSet.ofAsciiName? (String.ofList name)).map fun set =>
      (if negated then .complement set else set, behind)
  | _ => none

mutual

/-- The parts of a class up to its closing bracket. `first` holds where a bracket still stands for
itself. -/
def classItems? (extended fold : Bool) :
    Nat → Bool → CharSet → List Char → Option (CharSet × List Char)
  | 0, _, _, _ => none
  | n + 1, first, set, text =>
    match text with
    | [] => none
    | ']' :: rest =>
      if first then classRange? extended fold n set (']' :: rest) else some (set, rest)
    | '&' :: '&' :: rest =>
      (classItems? extended fold n false .none rest).map fun r => (.both set r.1, r.2)
    | '-' :: '-' :: rest =>
      (classItems? extended fold n false .none rest).map fun r =>
        (.both set (.complement r.1), r.2)
    | '~' :: '~' :: rest =>
      (classItems? extended fold n false .none rest).map fun r =>
        (.both (.union set r.1) (.complement (.both set r.1)), r.2)
    | '[' :: ':' :: rest =>
      match asciiClass? rest with
      | some (inner, behind) => classItems? extended fold n false (.union set inner) behind
      | none =>
        (bracketClass? extended fold n (':' :: rest)).bind fun r =>
          classItems? extended fold n false (.union set r.1) r.2
    | '[' :: rest =>
      (bracketClass? extended fold n rest).bind fun r =>
        classItems? extended fold n false (.union set r.1) r.2
    | other => classRange? extended fold n set other

/-- A character, a range or an escape, and the parts behind it. -/
def classRange? (extended fold : Bool) : Nat → CharSet → List Char → Option (CharSet × List Char)
  | 0, _, _ => none
  | n + 1, set, text =>
    match classAtom? extended text with
    | none => none
    | some (.inr inner, behind) =>
      let part := if fold then inner.ignoringCase else inner
      classItems? extended fold n false (.union set part) behind
    | some (.inl low, behind) =>
      let alone := classItems? extended fold n false (.union set (.single low)) behind
      match behind with
      | '-' :: ']' :: _ => alone
      | '-' :: '-' :: _ => alone
      | '-' :: more =>
        match classAtom? extended more with
        | some (.inl high, left) =>
          if low ≤ high then
            classItems? extended fold n false (.union set (.range low.toNat high.toNat)) left
          else none
        | _ => none
      | _ => alone

/-- A class behind its opening bracket. -/
def bracketClass? (extended fold : Bool) : Nat → List Char → Option (CharSet × List Char)
  | 0, _ => none
  | n + 1, text =>
    let negated := text.head? == some '^'
    let body := if negated then text.drop 1 else text
    (classItems? extended fold n true .none body).map fun r =>
      let set := if fold then CharSet.folded r.1 else r.1
      (if negated then .complement set else set, r.2)

end

/-! ## Repetitions and groups -/

/-- The least and the greatest number in braces, behind the opening one. -/
def counts? (text : List Char) : Option (Nat × Option Nat × List Char) :=
  let first := text.takeWhile isDigit
  if first.isEmpty then none
  else
    match text.dropWhile isDigit with
    | '\x7d' :: rest => some (decimalValue first, some (decimalValue first), rest)
    | ',' :: '\x7d' :: rest => some (decimalValue first, none, rest)
    | ',' :: more =>
      let last := more.takeWhile isDigit
      match more.dropWhile isDigit with
      | '\x7d' :: rest =>
        if last.isEmpty || decimalValue last < decimalValue first then none
        else some (decimalValue first, some (decimalValue last), rest)
      | _ => none
    | _ => none

/-- Whether a pattern can be repeated: it is not empty, and no mere condition on a place. -/
def isRepeatable : Pattern → Bool
  | .empty | .textStart | .textEnd | .lineStart | .lineEnd => false
  | .wordBoundary _ | .look _ _ _ => false
  | .sequence a .empty => isRepeatable a
  | .sequence .empty b => isRepeatable b
  | _ => true

/-- Passes over the marks that ask for as few repetitions as possible, or for as many without giving
any of them back. Which places a pattern leads to does not hang on the former. -/
def skipGreed (text : List Char) : List Char :=
  let rest := match text with
    | '?' :: rest => rest
    | _ => text
  match rest with
  | '+' :: behind => behind
  | _ => rest

/-- What stands behind the repetitions of a pattern. They cannot be repeated again, and braces that
would do so stand for themselves. -/
def afterRepetition? (p : Pattern) (text : List Char) : Option (Pattern × List Char) :=
  match skipGreed text with
  | '*' :: _ | '+' :: _ | '?' :: _ => none
  | '\x7b' :: rest =>
    (counts? rest).map fun _ => (.sequence p (.one (.single '\x7b')), rest)
  | rest => some (p, rest)

/-- The repetitions of a pattern, as the text behind it tells. -/
def repetition? (p : Pattern) (text : List Char) : Option (Pattern × List Char) :=
  let counted : Option (Option (Nat × Option Nat × List Char)) :=
    match text with
    | '*' :: rest => some (some (0, none, rest))
    | '+' :: rest => some (some (1, none, rest))
    | '?' :: rest => some (some (0, some 1, rest))
    | '\x7b' :: rest => (counts? rest).map some
    | _ => some none
  match counted with
  | none => none
  | some none => some (p, text)
  | some (some (least, most, rest)) =>
    if isRepeatable p then afterRepetition? (.repeated p least most) rest else none

/-- Switches flags on, or off behind a minus sign; the text behind the letters is left. -/
def readFlags? (flags : Flags) (on : Bool) : List Char → Option (Flags × List Char)
  | [] => none
  | c :: rest =>
    if c = ':' || c = ')' then some (flags, c :: rest)
    else if c = 'i' then readFlags? { flags with ignoreCase := on } on rest
    else if c = 'm' then readFlags? { flags with multiLine := on } on rest
    else if c = 's' then readFlags? { flags with dotAll := on } on rest
    else if c = 'x' then readFlags? { flags with spaced := on } on rest
    else if c = 'u' || c = 'U' || c = 'R' then readFlags? flags on rest
    else if c = '-' && on then readFlags? flags false rest
    else none

/-- The name of a group up to the closing angle. -/
def groupName? (text : List Char) : Option (String × List Char) :=
  let name := text.takeWhile (· ≠ '>')
  match text.dropWhile (· ≠ '>') with
  | [] => none
  | _ :: rest =>
    let starts := match name with
      | c :: _ => c.isAlpha || c = '_'
      | [] => false
    if starts && name.all fun c => c.isAlphanum || c = '_' || c = '.' || c = '[' || c = ']' then
      some (String.ofList name, rest)
    else none

/-- Drops blanks and comments where they do not count. -/
def skipSpaced (flags : Flags) : Nat → List Char → List Char
  | 0, text => text
  | n + 1, text =>
    if flags.spaced then
      match text with
      | '#' :: rest => skipSpaced flags n ((rest.dropWhile (· ≠ '\n')).drop 1)
      | c :: rest => if isBlank c then skipSpaced flags n rest else text
      | [] => []
    else text

/-! ## Patterns -/

/-- An escape outside brackets, behind its backslash. -/
def escape? (r : Reader) : Parsed Pattern :=
  match r.rest with
  | [] => none
  | c :: rest =>
    let next := { r with rest := rest }
    if c = 'b' then some (.wordBoundary true, next)
    else if c = 'B' then some (.wordBoundary false, next)
    else if c = 'A' then some (.textStart, next)
    else if c = 'z' then some (.textEnd, next)
    else if isDigit c then
      let digits := r.rest.takeWhile isDigit
      let group := decimalValue digits
      if r.extended && group ≠ 0 then
        some (.backReference group r.flags.ignoreCase, r.drop digits.length)
      else none
    else if c = 'k' && r.extended then
      match rest with
      | '<' :: more =>
        (groupName? more).bind fun name =>
          (r.names.find? (·.1 == name.1)).map fun known =>
            (.backReference known.2 r.flags.ignoreCase, { r with rest := name.2 })
      | _ => none
    else
      match classEscape? r.extended r.rest with
      | some (set, behind) => some (.one (underCase r.flags set), { r with rest := behind })
      | none =>
        (charEscape? r.rest).map fun e =>
          (.one (underCase r.flags (.single e.1)), { r with rest := e.2 })

/-- The characters that a dot stands for. -/
def dotSet (flags : Flags) : CharSet :=
  if flags.dotAll then .any else .complement (.single '\n')

mutual

/-- Alternatives up to a closing parenthesis or the end. -/
def choice? : Nat → Reader → Parsed Pattern
  | 0, _ => none
  | n + 1, r =>
    (sequence? n r).bind fun first =>
      match first.2.rest with
      | '|' :: rest =>
        (choice? n { first.2 with rest := rest }).map fun more =>
          (.choice first.1 more.1, more.2)
      | _ => some first

/-- Repeated parts one after the other. -/
def sequence? : Nat → Reader → Parsed Pattern
  | 0, _ => none
  | n + 1, given =>
    let r := { given with rest := skipSpaced given.flags given.rest.length given.rest }
    match r.rest with
    | [] => some (.empty, r)
    | '|' :: _ => some (.empty, r)
    | ')' :: _ => some (.empty, r)
    | '(' :: '?' :: c :: more =>
      match (if c = '<' || c = '=' || c = '!' || c = 'P' || c = ':' || c = '>' then none
             else readFlags? r.flags true (c :: more)) with
      | some (flags, ')' :: behind) => sequence? n { r with rest := behind, flags := flags }
      | _ => repeatedThenMore? n r
    | _ => repeatedThenMore? n r

/-- A part with its repetitions, and the parts behind it. -/
def repeatedThenMore? : Nat → Reader → Parsed Pattern
  | 0, _ => none
  | n + 1, r =>
    (part? n r).bind fun first =>
      let behind := skipSpaced first.2.flags first.2.rest.length first.2.rest
      (repetition? first.1 behind).bind fun p =>
        (sequence? n { first.2 with rest := p.2 }).map fun more =>
          (.sequence p.1 more.1, more.2)

/-- A part without repetitions. -/
def part? : Nat → Reader → Parsed Pattern
  | 0, _ => none
  | n + 1, r =>
    match r.rest with
    | [] => none
    | '\\' :: rest => escape? { r with rest := rest }
    | '.' :: rest => some (.one (dotSet r.flags), { r with rest := rest })
    | '^' :: rest =>
      some (if r.flags.multiLine then .lineStart else .textStart, { r with rest := rest })
    | '$' :: rest =>
      some (if r.flags.multiLine then .lineEnd else .textEnd, { r with rest := rest })
    | '[' :: rest =>
      (bracketClass? r.extended r.flags.ignoreCase (3 * rest.length + 3) rest).map fun set =>
        (.one set.1, { r with rest := set.2 })
    | '(' :: rest => group? n { r with rest := rest }
    | '*' :: _ | '+' :: _ | '?' :: _ | '\x7b' :: _ => none
    | c :: rest => some (.one (underCase r.flags (.single c)), { r with rest := rest })

/-- A group behind its opening parenthesis. -/
def group? : Nat → Reader → Parsed Pattern
  | 0, _ => none
  | n + 1, r =>
    match r.rest with
    | '?' :: ':' :: rest => closed? n r.flags { r with rest := rest } fun p => p
    | '?' :: '=' :: rest =>
      if r.extended then closed? n r.flags { r with rest := rest } (.look true true) else none
    | '?' :: '!' :: rest =>
      if r.extended then closed? n r.flags { r with rest := rest } (.look true false) else none
    | '?' :: '<' :: '=' :: rest =>
      if r.extended then closed? n r.flags { r with rest := rest } (.look false true) else none
    | '?' :: '<' :: '!' :: rest =>
      if r.extended then closed? n r.flags { r with rest := rest } (.look false false) else none
    | '?' :: '>' :: rest =>
      if r.extended then closed? n r.flags { r with rest := rest } (fun p => p) else none
    | '?' :: 'P' :: '<' :: rest => named? n r rest
    | '?' :: '<' :: rest => named? n r rest
    | '?' :: rest =>
      match readFlags? r.flags true rest with
      | some (flags, ':' :: behind) =>
        closed? n r.flags { r with rest := behind, flags := flags } fun p => p
      | _ => none
    | _ => closed? n r.flags { r with groups := r.groups + 1 } (.capture (r.groups + 1))

/-- A group with a name, behind the opening angle. -/
def named? : Nat → Reader → List Char → Parsed Pattern
  | 0, _, _ => none
  | n + 1, r, text =>
    (groupName? text).bind fun name =>
      if r.names.any (·.1 == name.1) then none
      else
        let group := r.groups + 1
        closed? n r.flags
          { r with rest := name.2, groups := group, names := (name.1, group) :: r.names }
          (.capture group)

/-- Alternatives up to a closing parenthesis; behind it the flags from before hold again. -/
def closed? : Nat → Flags → Reader → (Pattern → Pattern) → Parsed Pattern
  | 0, _, _, _ => none
  | n + 1, flags, r, wrap =>
    (choice? n r).bind fun inner =>
      match inner.2.rest with
      | ')' :: rest => some (wrap inner.1, { inner.2 with rest := rest, flags := flags })
      | _ => none

end

/-- The greatest group that a pattern refers back to. -/
def greatestReference : Pattern → Nat
  | .sequence a b | .choice a b => max (greatestReference a) (greatestReference b)
  | .repeated a _ _ | .capture _ a | .look _ _ a => greatestReference a
  | .backReference group _ => group
  | _ => 0

/-- Reads a text in one of the two readings. -/
def parseAs? (extended : Bool) (text : String) : Option Pattern :=
  let chars := text.toList
  let start : Reader := ⟨chars, ⟨false, false, false, false⟩, 0, [], extended⟩
  match choice? (8 * chars.length + 16) start with
  | some (p, r) =>
    if r.rest.isEmpty && greatestReference p ≤ r.groups then
      some (if p.refersBack then p else p.withoutCaptures)
    else none
  | none => none

/-- The pattern of a text, if the text is a regular expression. -/
def parse? (text : String) : Option Pattern := (parseAs? false text).or (parseAs? true text)

end Pattern

/-- Whether a pattern, given by its text, matches somewhere in another text. -/
def matchesPattern (pattern text : String) : Bool :=
  match Pattern.parse? pattern with
  | some p => p.isFoundIn text
  | none => false

end ApiContract
