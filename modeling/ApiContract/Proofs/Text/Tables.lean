import ApiContract.Text.LowerCase
import Mathlib.Data.List.TakeWhile

/-! # Sweeps over tables of characters

Classes of characters are given by texts of ranges in ascending order. What holds of many characters at
once is found by one sweep over the ranges and the characters together, both in order.

* `Reads`: what texts of ranges are read as, line by line.
* `missed`, `avoids`: the spans that lie in no range, and whether no span meets one. -/

set_option autoImplicit false

namespace ApiContract

/-! ## Reading -/

/-- Texts of ranges are read as ranges. -/
inductive Reads : List String → CodeRanges → Prop where
  | nil : Reads [] []
  | cons {line : List Char} {texts : List String} {ranges : CodeRanges} (h : Reads texts ranges) :
    Reads (String.ofList line :: texts) ((line.splitOn ' ').filterMap readRange? ++ ranges)

theorem Reads.eq {texts : List String} {ranges : CodeRanges} (h : Reads texts ranges) :
    readRanges texts = ranges := by
  induction h with
  | nil => rfl
  | cons _ ih =>
    rw [← ih, readRanges, List.flatMap_cons, String.toList_ofList]
    rfl

/-- What holds of the ranges holds of the texts. -/
theorem Reads.elim {texts : List String} {ranges : CodeRanges} {P : CodeRanges → Prop}
    (h : Reads texts ranges) (hp : P ranges) : P (readRanges texts) :=
  h.eq ▸ hp

/-! ## Sweeping -/

/-- Whether ranges begin in ascending order. -/
def ascends : CodeRanges → Bool
  | [] => true
  | r :: ranges => (ranges.head?.all fun s => Nat.ble r.1 s.1) && ascends ranges

/-- The spans that a sweep finds within none of the ranges. -/
def missed : CodeRanges → CodeRanges → CodeRanges
  | [], spans => spans
  | r :: ranges, spans =>
    let rest := spans.dropWhile fun s => Nat.blt s.1 r.1
    (spans.takeWhile fun s => Nat.blt s.1 r.1) ++
      missed ranges (rest.dropWhile fun s => Nat.ble r.1 s.1 && Nat.ble s.2 r.2)

/-- Whether a sweep finds all spans between the ranges. -/
def avoids : CodeRanges → CodeRanges → Bool
  | [], _ => true
  | r :: ranges, spans =>
    match spans.dropWhile fun s => Nat.blt s.2 r.1 with
    | [] => true
    | s :: rest => Nat.blt r.2 s.1 && avoids ranges (s :: rest)

section

variable {ranges spans : CodeRanges} {r s : Nat × Nat} {n : Nat}

theorem holds_iff : ranges.holds n = true ↔ ∃ r ∈ ranges, r.1 ≤ n ∧ n ≤ r.2 := by
  simp [CodeRanges.holds]

theorem mem_dropWhile_or {p : Nat × Nat → Bool} (h : s ∈ spans) :
    p s = true ∨ s ∈ spans.dropWhile p := by
  rw [← List.takeWhile_append_dropWhile (p := p) (l := spans)] at h
  rcases List.mem_append.1 h with htake | hdrop
  · exact .inl (List.mem_takeWhile_imp htake)
  · exact .inr hdrop

theorem le_of_ascends (h : ascends (r :: ranges) = true) (hs : s ∈ r :: ranges) : r.1 ≤ s.1 := by
  induction ranges generalizing r with
  | nil => exact (List.mem_singleton.1 hs) ▸ le_rfl
  | cons first ranges ih =>
    rw [ascends, Bool.and_eq_true] at h
    rcases List.mem_cons.1 hs with rfl | hmem
    · exact le_rfl
    · have hfirst : r.1 ≤ first.1 := by simpa using h.1
      exact hfirst.trans (ih h.2 hmem)

theorem ascends_suffix (h : ascends ranges = true) (hsuffix : spans <:+ ranges) :
    ascends spans = true := by
  induction ranges with
  | nil => exact (List.suffix_nil.1 hsuffix) ▸ rfl
  | cons r ranges ih =>
    rcases List.suffix_cons_iff.1 hsuffix with rfl | hrest
    · exact h
    · rw [ascends, Bool.and_eq_true] at h
      exact ih h.2 hrest

/-- A code in spans lies in the ranges or in a span that they miss. -/
theorem holds_or_missed (h : spans.holds n = true) :
    ranges.holds n = true ∨ (missed ranges spans).holds n = true := by
  obtain ⟨s, hs, hin⟩ := holds_iff.1 h
  clear h
  induction ranges generalizing spans with
  | nil => exact .inr (holds_iff.2 ⟨s, hs, hin⟩)
  | cons r ranges ih =>
    rw [← List.takeWhile_append_dropWhile (p := fun s => Nat.blt s.1 r.1) (l := spans)] at hs
    rcases List.mem_append.1 hs with hbefore | hrest
    · exact .inr (holds_iff.2 ⟨s, List.mem_append.2 (.inl hbefore), hin⟩)
    · rcases mem_dropWhile_or (p := fun s => Nat.ble r.1 s.1 && Nat.ble s.2 r.2) hrest with hinside | hleft
      · simp only [Bool.and_eq_true, Nat.ble_eq] at hinside
        exact .inl (holds_iff.2
          ⟨r, List.mem_cons_self, hinside.1.trans hin.1, hin.2.trans hinside.2⟩)
      · rcases ih hleft with hholds | hmissed
        · obtain ⟨range, hrange, hrin⟩ := holds_iff.1 hholds
          exact .inl (holds_iff.2 ⟨range, List.mem_cons_of_mem _ hrange, hrin⟩)
        · obtain ⟨span, hspan, hsin⟩ := holds_iff.1 hmissed
          exact .inr (holds_iff.2 ⟨span, List.mem_append_right _ hspan, hsin⟩)

/-- Codes in spans that are avoided lie in none of the ranges. -/
theorem not_holds_of_avoids (hranges : ascends ranges = true) (hspans : ascends spans = true)
    (h : avoids ranges spans = true) (hn : spans.holds n = true) : ranges.holds n = false := by
  obtain ⟨s, hs, hlow, hhigh⟩ := holds_iff.1 hn
  clear hn
  rw [← Bool.not_eq_true]
  intro hholds
  obtain ⟨range, hrange, hin⟩ := holds_iff.1 hholds
  clear hholds
  induction ranges generalizing spans with
  | nil => cases hrange
  | cons r ranges ih =>
    rcases mem_dropWhile_or (p := fun s => Nat.blt s.2 r.1) hs with hbefore | hleft
    · have hlt : s.2 < r.1 := by simpa using hbefore
      have hle := le_of_ascends hranges hrange
      omega
    · rw [avoids] at h
      split at h
      · rename_i hnil
        rw [hnil] at hleft
        cases hleft
      · rename_i first rest hcons
        have hrest : ascends (first :: rest) = true :=
          hcons ▸ ascends_suffix hspans (List.dropWhile_suffix _)
        rw [hcons] at hleft
        rw [Bool.and_eq_true, Nat.blt_eq] at h
        have hfirst := le_of_ascends hrest hleft
        rcases List.mem_cons.1 hrange with rfl | hmem
        · omega
        · rw [ascends, Bool.and_eq_true] at hranges
          exact ih hranges.2 hrest h.2 hleft hmem

end

end ApiContract
