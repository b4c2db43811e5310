import ApiContract.Pattern.Syntax

/-!
# Matching

`Pattern.ends` gives the places that a pattern can lead to from a place in a text, each once, by
recursion on the pattern. A repetition goes on only as long as it reaches new places, so the length of
the text bounds it. `Pattern.isFoundIn` asks whether a pattern matches anywhere in a text.
-/

namespace ApiContract

/-- A place in a text, and what has been captured on the way: for each group where it starts and
ends. -/
structure Place where
  position : Nat
  captured : List (Nat × Nat × Nat)
deriving DecidableEq, Repr

/-- Whether a character belongs to words. -/
def isWordChar (c : Char) : Bool :=
  if c.toNat < 128 then c.isAlphanum || c = '_'
  else
    isLetter c || isMark c ||
      Category.anyHolds [.decimalNumber, .connectorPunctuation, .letterNumber] c ||
      c.toNat == 0x200C || c.toNat == 0x200D

section

variable (text : Array Char)

/-- Whether there is a word character at a position. -/
def isWordAt (position : Nat) : Bool :=
  match text[position]? with
  | some c => isWordChar c
  | none => false

/-- Whether exactly one of the two neighbours of a position belongs to a word. -/
def isWordBoundary (position : Nat) : Bool :=
  let before := if position = 0 then false else isWordAt text (position - 1)
  before != isWordAt text position

/-- Whether a line ends before a position. -/
def isAfterNewline (position : Nat) : Bool :=
  position == 0 || text[position - 1]? == some '\n'

/-- Whether a line ends at a position. -/
def isBeforeNewline (position : Nat) : Bool :=
  position == text.size || text[position]? == some '\n'

/-- Whether the text at a position repeats some characters. -/
def repeatsAt (foldCase : Bool) (position : Nat) : List Char → Bool
  | [] => true
  | c :: rest =>
    match text[position]? with
    | some d =>
      (c == d || (foldCase && caseFold c == caseFold d)) && repeatsAt foldCase (position + 1) rest
    | none => false

/-- Removes repetitions. -/
def distinct (places : List Place) : List Place := places.eraseDups

/-- The places reached by one step after the other, the start included, as long as there are new ones
further on. -/
def closure (step : Place → List Place) : Nat → List Place → List Place → List Place
  | 0, _, seen => seen
  | n + 1, frontier, seen =>
    let reached := frontier.flatMap fun p => (step p).filter fun q => p.position < q.position
    let fresh := (distinct reached).filter fun q => !seen.contains q
    if fresh.isEmpty then seen else closure step n fresh (seen ++ fresh)

/-- The places reached by exactly a number of steps. -/
def iterate (step : Place → List Place) : Nat → List Place → List Place
  | 0, places => places
  | n + 1, places =>
    if places.isEmpty then [] else iterate step n (distinct (places.flatMap step))

/-- The places reached by up to a number of steps. -/
def iterateUpTo (step : Place → List Place) : Nat → List Place → List Place
  | 0, places => places
  | n + 1, places =>
    let reached := distinct (places.flatMap step)
    let fresh := reached.filter fun q => !places.contains q
    if fresh.isEmpty then places else places ++ (iterateUpTo step n fresh)

/-- The places that a pattern leads to. -/
def Pattern.ends : Pattern → Place → List Place
  | .empty, p => [p]
  | .one set, p =>
    match text[p.position]? with
    | some c => if set.holds c then [{ p with position := p.position + 1 }] else []
    | none => []
  | .textStart, p => if p.position = 0 then [p] else []
  | .textEnd, p => if p.position = text.size then [p] else []
  | .lineStart, p => if isAfterNewline text p.position then [p] else []
  | .lineEnd, p => if isBeforeNewline text p.position then [p] else []
  | .wordBoundary wanted, p => if isWordBoundary text p.position == wanted then [p] else []
  | .sequence a b, p => distinct ((ends a p).flatMap (ends b))
  | .choice a b, p => distinct (ends a p ++ ends b p)
  | .repeated a least most, p =>
    let start := iterate (ends a) least [p]
    match most with
    | none => closure (ends a) (text.size + 1) start start
    | some n => distinct (iterateUpTo (ends a) (n - least) start)
  | .capture group a, p =>
    (ends a p).map fun q =>
      { q with captured := (group, p.position, q.position) ::
          q.captured.filter fun c => c.1 != group }
  | .backReference group foldCase, p =>
    match p.captured.find? (·.1 == group) with
    | some (_, first, last) =>
      let kept := (text.toList.drop first).take (last - first)
      if repeatsAt text foldCase p.position kept then
        [{ p with position := p.position + (last - first) }]
      else []
    | none => []
  | .look true wanted a, p => if (ends a p).isEmpty == wanted then [] else [p]
  | .look false wanted a, p =>
    let found := (List.range (p.position + 1)).any fun start =>
      (ends a { p with position := start }).any fun q => q.position == p.position
    if found == wanted then [p] else []

end

/-- Whether a pattern matches somewhere in a text. -/
def Pattern.isFoundIn (pattern : Pattern) (text : String) : Bool :=
  let chars := text.toList.toArray
  (List.range (chars.size + 1)).any fun start => !(pattern.ends chars ⟨start, []⟩).isEmpty

end ApiContract
