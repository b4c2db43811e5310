import ApiContract.Text.LowerCase

/-!
# Patterns

Regular expressions as trees.

* `CharSet`: a set of characters, with `CharSet.holds`.
* `Pattern`: what a pattern matches, with captured groups, references back to them, and conditions on
  the text around a place.
-/

namespace ApiContract

/-! ## Sets of characters -/

/-- A set of characters. -/
inductive CharSet where
  | none
  | any
  | range (low high : Nat)
  | category (of : List Category)
  | union (a b : CharSet)
  | both (a b : CharSet)
  | complement (a : CharSet)
  /-- All characters that equal one of a set when case is ignored. -/
  | folded (a : CharSet)
deriving Repr

/-- The characters that equal a character when case is ignored. -/
def caseVariants (c : Char) : List Char :=
  let small := caseFold c
  let n := small.toNat
  let capitals :=
    if n < 128 then (if 'a' ≤ small && small ≤ 'z' then [Char.ofNat (n - 32)] else [])
    else []
  let runs := lowerCaseRuns.filterMap fun r =>
    let capital := ((n : Int) - r.2.2.2).toNat
    if r.1 ≤ capital && capital ≤ r.2.1 && (capital - r.1) % r.2.2.1 == 0 then
      some (Char.ofNat capital)
    else Option.none
  let variants := foldedVariants.filterMap fun v =>
    if v.2 == n then some (Char.ofNat v.1) else Option.none
  small :: (capitals ++ runs ++ variants)

namespace CharSet

/-- Whether a character belongs to a set. -/
def holds : CharSet → Char → Bool
  | none, _ => false
  | any, _ => true
  | range low high, c => low ≤ c.toNat && c.toNat ≤ high
  | category of, c => Category.anyHolds of c
  | union a b, c => holds a c || holds b c
  | both a b, c => holds a c && holds b c
  | complement a, c => !holds a c
  | folded a, c => holds a c || (caseVariants c).any fun d => holds a d

/-- The set with case ignored. What a complement leaves out is left out in every case. -/
def ignoringCase : CharSet → CharSet
  | complement a => complement (folded a)
  | a => folded a

def single (c : Char) : CharSet := range c.toNat c.toNat

def ofChars (cs : List Char) : CharSet := cs.foldr (fun c set => union (single c) set) none

def ofRanges (ranges : List (Char × Char)) : CharSet :=
  ranges.foldr (fun r set => union (range r.1.toNat r.2.toNat) set) none

end CharSet

/-! ## Patterns -/

/-- A regular expression. -/
inductive Pattern where
  /-- The empty text. -/
  | empty
  /-- One character of a set. -/
  | one (set : CharSet)
  | textStart
  | textEnd
  | lineStart
  | lineEnd
  /-- A place between a word character and another one, or any other place. -/
  | wordBoundary (wanted : Bool)
  | sequence (a b : Pattern)
  | choice (a b : Pattern)
  /-- A number of repetitions; without a greatest one there may be any number. -/
  | repeated (a : Pattern) (least : Nat) (most : Option Nat)
  /-- What the pattern matches is kept under a number. -/
  | capture (group : Nat) (a : Pattern)
  /-- The text kept under a number. -/
  | backReference (group : Nat) (foldCase : Bool)
  /-- A condition on the text behind a place, or before it. -/
  | look (ahead wanted : Bool) (a : Pattern)
deriving Repr

/-- Whether the pattern refers back to a group. -/
def Pattern.refersBack : Pattern → Bool
  | .sequence a b | .choice a b => refersBack a || refersBack b
  | .repeated a _ _ | .capture _ a | .look _ _ a => refersBack a
  | .backReference _ _ => true
  | _ => false

/-- The pattern without captures, for one that never refers back to them. -/
def Pattern.withoutCaptures : Pattern → Pattern
  | .sequence a b => .sequence (withoutCaptures a) (withoutCaptures b)
  | .choice a b => .choice (withoutCaptures a) (withoutCaptures b)
  | .repeated a least most => .repeated (withoutCaptures a) least most
  | .capture _ a => withoutCaptures a
  | .look ahead wanted a => .look ahead wanted (withoutCaptures a)
  | other => other

end ApiContract
