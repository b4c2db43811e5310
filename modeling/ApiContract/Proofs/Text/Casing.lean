import ApiContract.Proofs.Text.Tables
import Mathlib.Data.List.Sort

/-! # Characters with a lower case

What the tables say of the characters that have a lower case, and of these lower cases.

* `capitalRuns`, `smallRuns`: the runs of the first, and the runs of the others.
* `lowerChar_cases`: a character is its own lower case, or a run leads from it to its lower case.
* `isCased_lowerChar`, `isCaseIgnorable_lowerChar`: a character and its lower case are alike as
  neighbours of a sigma.
* `lowerChar_eq_sigma`: what has the small sigma as its lower case. -/

set_option autoImplicit false

namespace ApiContract

/-! ## Runs -/

/-- Runs of codes: the first, the last, and the step from one to the next. -/
abbrev CodeRuns := List (Nat × Nat × Nat)

/-- A code is in one of the runs. -/
def CodeRuns.Has (runs : CodeRuns) (n : Nat) : Prop :=
  ∃ run ∈ runs, run.1 ≤ n ∧ n ≤ run.2.1 ∧ (n - run.1) % run.2.2 = 0

/-- The codes of a run, as spans. -/
def runSpans (run : Nat × Nat × Nat) : CodeRanges :=
  if run.2.2 = 1 then [(run.1, run.2.1)]
  else (List.range ((run.2.1 - run.1) / run.2.2 + 1)).map fun k =>
    (run.1 + k * run.2.2, run.1 + k * run.2.2)

/-- The codes of runs, as spans in order. -/
def CodeRuns.spans (runs : CodeRuns) : CodeRanges :=
  (runs.flatMap runSpans).insertionSort fun r s => r.1 ≤ s.1

/-- The runs with all that lies between their codes. -/
def CodeRuns.hulls (runs : CodeRuns) : CodeRanges := runs.map fun run => (run.1, run.2.1)

/-- A code moved by the distance of a run. -/
def moved (run : Nat × Nat × Nat × Int) (n : Nat) : Nat := ((n : Int) + run.2.2.2).toNat

/-- The characters that have a lower case. -/
def capitalRuns : CodeRuns := lowerCaseRuns.map fun run => (run.1, run.2.1, run.2.2.1)

/-- The lower cases, in order, with the final sigma. -/
def smallRuns : CodeRuns :=
  ((0x3C2, 0x3C2, 1) :: lowerCaseRuns.map fun run =>
    (moved run run.1, moved run run.2.1, run.2.2.1)).insertionSort fun r s => r.1 ≤ s.1

section

variable {runs : CodeRuns} {run : Nat × Nat × Nat} {n : Nat}

theorem holds_runSpans (hfirst : run.1 ≤ n) (hlast : n ≤ run.2.1) (hstep : (n - run.1) % run.2.2 = 0) :
    CodeRanges.holds (runSpans run) n = true := by
  rw [holds_iff, runSpans]
  split
  · exact ⟨_, List.mem_singleton.2 rfl, hfirst, hlast⟩
  · have hn : run.1 + (n - run.1) / run.2.2 * run.2.2 = n := by
      have hdiv := Nat.div_add_mod (n - run.1) run.2.2
      rw [hstep, Nat.mul_comm] at hdiv
      omega
    have hle : (n - run.1) / run.2.2 ≤ (run.2.1 - run.1) / run.2.2 := Nat.div_le_div_right (by omega)
    exact ⟨_, List.mem_map_of_mem (List.mem_range.2 (Nat.lt_succ_of_le hle)), hn.le, hn.ge⟩

theorem CodeRuns.Has.holds_spans (h : runs.Has n) : runs.spans.holds n = true := by
  obtain ⟨run, hrun, hfirst, hlast, hstep⟩ := h
  obtain ⟨span, hspan, hin⟩ := holds_iff.1 (holds_runSpans hfirst hlast hstep)
  exact holds_iff.2 ⟨span, (List.mem_insertionSort _).2 (List.mem_flatMap.2 ⟨run, hrun, hspan⟩), hin⟩

theorem CodeRuns.Has.holds_hulls (h : runs.Has n) : runs.hulls.holds n = true := by
  obtain ⟨run, hrun, hfirst, hlast, -⟩ := h
  exact holds_iff.2 ⟨_, List.mem_map_of_mem hrun, hfirst, hlast⟩

end

/-! ## What the tables say -/

/-- The capitals of ASCII are a run, no run leads below zero, and one leads to the small sigma. -/
theorem runs_sound : (0x41, 0x5A, 1, 32) ∈ lowerCaseRuns ∧
    (∀ run ∈ lowerCaseRuns, 0 ≤ (run.1 : Int) + run.2.2.2) ∧
    ∀ run ∈ lowerCaseRuns, (run.1 : Int) ≤ 0x3C3 - run.2.2.2 → 0x3C3 - run.2.2.2 ≤ (run.2.1 : Int) →
      (0x3C3 - run.2.2.2 - run.1) % (run.2.2.1 : Int) = 0 → run.2.2.2 = 32 := by
  decide +kernel

/-- Capitals and small letters are in order, and those in ASCII are its letters. Small letters are
characters, and the dotted capital is none of them. -/
theorem letters_sound :
    (ascends capitalRuns.hulls = true ∧
      capitalRuns.hulls.all (fun s => 128 ≤ s.1 || 65 ≤ s.1 && s.2 ≤ 90) = true) ∧
    ascends smallRuns.hulls = true ∧
    smallRuns.hulls.all (fun s => 128 ≤ s.1 || 97 ≤ s.1 && s.2 ≤ 122) = true ∧
    smallRuns.hulls.all (fun s => s.2 < 0xD800 || 0xDFFF < s.1 && s.2 < 0x110000) = true ∧
    smallRuns.hulls.holds 0x130 = false := by
  decide +kernel

/-- Whether ranges meet no capital and no small letter. -/
def clears (ranges : CodeRanges) : Bool :=
  ascends ranges && avoids ranges capitalRuns.hulls && avoids ranges smallRuns.hulls

/-- Capitals of two letters with a small second one. -/
def titleCapitals : CodeRanges :=
  [(0x1C5, 0x1C5), (0x1C8, 0x1C8), (0x1CB, 0x1CB), (0x1F2, 0x1F2), (0x1F88, 0x1F8F), (0x1F98, 0x1F9F),
   (0x1FA8, 0x1FAF), (0x1FBC, 0x1FBC), (0x1FCC, 0x1FCC), (0x1FFC, 0x1FFC)]

/-- Numerals and letters in circles, capitals and small ones. -/
def capitalSymbols : CodeRanges := [(0x2160, 0x216F), (0x24B6, 0x24CF)]

def smallSymbols : CodeRanges := [(0x2170, 0x217F), (0x24D0, 0x24E9)]

/-- The letters and symbols that the categories of cased characters leave to one another. -/
theorem cased_missed :
    missed Category.uppercaseLetter.ranges capitalRuns.spans = titleCapitals ++ capitalSymbols ∧
    missed Category.titlecaseLetter.ranges (titleCapitals ++ capitalSymbols) = capitalSymbols ∧
    missed Category.lowercaseLetter.ranges smallRuns.spans = smallSymbols ∧
    missed otherCased capitalSymbols = [] ∧ missed otherCased smallSymbols = [] := by
  refine ⟨?_, ?_, ?_, ?_⟩
  · apply Reads.elim (P := fun ranges => missed ranges capitalRuns.spans = titleCapitals ++ capitalSymbols)
    · dsimp only [CategoryTable.uppercaseLetter]
      repeat apply Reads.cons
      exact .nil
    · decide +kernel
  · apply Reads.elim (P := fun ranges => missed ranges (titleCapitals ++ capitalSymbols) = capitalSymbols)
    · dsimp only [CategoryTable.titlecaseLetter]
      repeat apply Reads.cons
      exact .nil
    · decide +kernel
  · apply Reads.elim (P := fun ranges => missed ranges smallRuns.spans = smallSymbols)
    · dsimp only [CategoryTable.lowercaseLetter]
      repeat apply Reads.cons
      exact .nil
    · decide +kernel
  · unfold otherCased
    apply Reads.elim (P := fun ranges => missed ranges capitalSymbols = [] ∧ missed ranges smallSymbols = [])
    · repeat apply Reads.cons
      exact .nil
    · decide +kernel

/-- The characters that are passed over on the way to a neighbour are no letters with two cases. -/
theorem ignorable_clears :
    (∀ k ∈ [Category.nonspacingMark, .enclosingMark, .format, .modifierLetter, .modifierSymbol],
      clears k.ranges = true) ∧ clears wordPunctuation = true := by
  constructor
  · intro k hk
    simp only [List.mem_cons, List.not_mem_nil, or_false] at hk
    rcases hk with rfl | rfl | rfl | rfl | rfl
    all_goals
      apply Reads.elim (P := fun ranges => clears ranges = true)
      · dsimp only [CategoryTable.nonspacingMark, CategoryTable.enclosingMark, CategoryTable.format,
          CategoryTable.modifierLetter, CategoryTable.modifierSymbol]
        repeat apply Reads.cons
        exact .nil
      · decide +kernel
  · unfold wordPunctuation
    apply Reads.elim (P := fun ranges => clears ranges = true)
    · repeat apply Reads.cons
      exact .nil
    · decide +kernel

/-! ## Characters -/

section

variable {c : Char} {n : Nat}

theorem holds_bound {p : Nat × Nat → Bool} {spans : CodeRanges} (hall : spans.all p = true)
    (h : spans.holds n = true) : ∃ s, p s = true ∧ s.1 ≤ n ∧ n ≤ s.2 := by
  obtain ⟨s, hs, hin⟩ := holds_iff.1 h
  exact ⟨s, List.all_eq_true.1 hall s hs, hin⟩

theorem toNat_ofNat_of_valid (h : n.isValidChar) : (Char.ofNat n).toNat = n := by
  rw [Char.ofNat, dif_pos h]
  rfl

theorem small_valid (h : smallRuns.Has n) : n.isValidChar := by
  obtain ⟨s, hs, hlow, hhigh⟩ := holds_bound letters_sound.2.2.2.1 h.holds_hulls
  simp only [Bool.or_eq_true, Bool.and_eq_true, decide_eq_true_eq] at hs
  rcases hs with hs | ⟨hfirst, hlast⟩
  · exact .inl (by omega)
  · exact .inr ⟨by omega, by omega⟩

theorem small_ascii (h : smallRuns.Has n) (hascii : n < 128) : 97 ≤ n ∧ n ≤ 122 := by
  obtain ⟨s, hs, hlow, hhigh⟩ := holds_bound letters_sound.2.2.1 h.holds_hulls
  simp only [Bool.or_eq_true, Bool.and_eq_true, decide_eq_true_eq] at hs
  omega

theorem capital_ascii (h : capitalRuns.Has n) (hascii : n < 128) : 65 ≤ n ∧ n ≤ 90 := by
  obtain ⟨s, hs, hlow, hhigh⟩ := holds_bound letters_sound.1.2 h.holds_hulls
  simp only [Bool.or_eq_true, Bool.and_eq_true, decide_eq_true_eq] at hs
  omega

/-! ### Lower cases -/

/-- A run leads from a capital to a small letter. -/
structure LeadsTo (run : Nat × Nat × Nat × Int) (n small : Nat) : Prop where
  mem : run ∈ lowerCaseRuns
  first_le : run.1 ≤ n
  le_last : n ≤ run.2.1
  step : (n - run.1) % run.2.2.1 = 0
  distance : (small : Int) = n + run.2.2.2

theorem LeadsTo.capital {run : Nat × Nat × Nat × Int} {small : Nat} (h : LeadsTo run n small) :
    capitalRuns.Has n :=
  ⟨_, List.mem_map_of_mem h.mem, h.first_le, h.le_last, h.step⟩

theorem LeadsTo.small {run : Nat × Nat × Nat × Int} {small : Nat} (h : LeadsTo run n small) :
    smallRuns.Has small := by
  have hzero := runs_sound.2.1 run h.mem
  obtain ⟨hmem, hfirst, hlast, hstep, hdistance⟩ := h
  have hsub : small - moved run run.1 = n - run.1 := by
    simp only [moved]
    omega
  refine ⟨_, (List.mem_insertionSort _).2 (List.mem_cons_of_mem _ (List.mem_map_of_mem hmem)), ?_, ?_, ?_⟩
  · simp only [moved]
    omega
  · simp only [moved]
    omega
  · exact hsub ▸ hstep

/-- A character is its own lower case, or a run leads from it to its lower case. -/
theorem lowerChar_cases (c : Char) :
    lowerChar c = c ∨ ∃ run, LeadsTo run c.toNat (lowerChar c).toNat := by
  have hrun : ∀ run ∈ lowerCaseRuns, run.1 ≤ c.toNat → c.toNat ≤ run.2.1 →
      (c.toNat - run.1) % run.2.2.1 = 0 → LeadsTo run c.toNat (Char.ofNat (moved run c.toNat)).toNat := by
    intro run hmem hfirst hlast hstep
    have hzero := runs_sound.2.1 run hmem
    have hleads : LeadsTo run c.toNat (moved run c.toNat) :=
      ⟨hmem, hfirst, hlast, hstep, by simp only [moved]; omega⟩
    rwa [toNat_ofNat_of_valid (small_valid hleads.small)]
  unfold lowerChar
  split
  · split
    · rename_i hcapital
      simp only [Bool.and_eq_true, decide_eq_true_eq] at hcapital
      exact .inr ⟨_, hrun (0x41, 0x5A, 1, 32) runs_sound.1 hcapital.1 hcapital.2 (Nat.mod_one _)⟩
    · exact .inl rfl
  · split
    · rename_i run hfind
      have hfound := List.find?_some hfind
      simp only [Bool.and_eq_true, decide_eq_true_eq, beq_iff_eq] at hfound
      exact .inr ⟨run, hrun run (List.mem_of_find?_eq_some hfind) hfound.1.1 hfound.1.2 hfound.2⟩
    · exact .inl rfl

/-! ### Neighbours of a sigma -/

theorem capital_cased (h : capitalRuns.Has c.toNat) : isCased c = true := by
  unfold isCased
  split
  · rename_i hascii
    have hupper : c.isUpper = true := decide_eq_true (capital_ascii h hascii)
    exact (Bool.or_eq_true ..).mpr (.inl hupper)
  · rw [Bool.or_eq_true]
    rcases holds_or_missed h.holds_spans with hupper | hmissed
    · exact .inl (List.any_eq_true.2 ⟨.uppercaseLetter, by simp, hupper⟩)
    · rw [cased_missed.1] at hmissed
      rcases holds_or_missed hmissed with htitle | hsymbol
      · exact .inl (List.any_eq_true.2 ⟨.titlecaseLetter, by simp, htitle⟩)
      · rw [cased_missed.2.1] at hsymbol
        rcases holds_or_missed hsymbol with hother | hnone
        · exact .inr hother
        · rw [cased_missed.2.2.2.1] at hnone
          cases hnone

theorem small_cased (h : smallRuns.Has c.toNat) : isCased c = true := by
  unfold isCased
  split
  · rename_i hascii
    obtain ⟨hfirst, hlast⟩ := small_ascii h hascii
    have hlower : c.isLower = true :=
      (Bool.and_eq_true ..).mpr ⟨decide_eq_true hfirst, decide_eq_true hlast⟩
    exact (Bool.or_eq_true ..).mpr (.inr hlower)
  · rw [Bool.or_eq_true]
    rcases holds_or_missed h.holds_spans with hlower | hsymbol
    · exact .inl (List.any_eq_true.2 ⟨.lowercaseLetter, by simp, hlower⟩)
    · rw [cased_missed.2.2.1] at hsymbol
      rcases holds_or_missed hsymbol with hother | hnone
      · exact .inr hother
      · rw [cased_missed.2.2.2.2] at hnone
        cases hnone

theorem not_holds_of_clears {ranges : CodeRanges} (hclears : clears ranges = true)
    (h : capitalRuns.Has n ∨ smallRuns.Has n) : ranges.holds n = false := by
  simp only [clears, Bool.and_eq_true] at hclears
  rcases h with hcapital | hsmall
  · exact not_holds_of_avoids hclears.1.1 letters_sound.1.1 hclears.1.2 hcapital.holds_hulls
  · exact not_holds_of_avoids hclears.1.1 letters_sound.2.1 hclears.2 hsmall.holds_hulls

theorem not_ignorable (h : capitalRuns.Has c.toNat ∨ smallRuns.Has c.toNat) :
    isCaseIgnorable c = false := by
  rw [isCaseIgnorable, not_holds_of_clears ignorable_clears.2 h, Bool.false_or,
    Category.anyHolds, List.any_eq_false]
  intro k hk
  have hranges : k.holds c = k.ranges.holds c.toNat := by
    cases k <;> first | rfl | simp at hk
  rw [hranges, not_holds_of_clears (ignorable_clears.1 k hk) h]
  exact Bool.false_ne_true

theorem isCased_lowerChar (c : Char) : isCased (lowerChar c) = isCased c := by
  rcases lowerChar_cases c with hsame | ⟨run, hleads⟩
  · rw [hsame]
  · rw [small_cased hleads.small, capital_cased hleads.capital]

theorem isCaseIgnorable_lowerChar (c : Char) : isCaseIgnorable (lowerChar c) = isCaseIgnorable c := by
  rcases lowerChar_cases c with hsame | ⟨run, hleads⟩
  · rw [hsame]
  · rw [not_ignorable (.inr hleads.small), not_ignorable (.inl hleads.capital)]

/-! ### Sigmas -/

theorem finalSigma_small : smallRuns.Has 'ς'.toNat :=
  ⟨(0x3C2, 0x3C2, 1), (List.mem_insertionSort _).2 List.mem_cons_self, le_rfl, le_rfl, rfl⟩

theorem lowerChar_eq_sigma (h : lowerChar c = 'σ') : c = 'σ' ∨ c = 'Σ' := by
  rcases lowerChar_cases c with hsame | ⟨run, hleads⟩
  · exact .inl (hsame.symm.trans h)
  · right
    rw [h] at hleads
    obtain ⟨hmem, hfirst, hlast, hstep, hcode⟩ := hleads
    have hsigma : ('σ'.toNat : Int) = 0x3C3 := rfl
    have hdistance := runs_sound.2.2 run hmem (by omega) (by omega) (by
      have hsub : 0x3C3 - run.2.2.2 - (run.1 : Int) = ((c.toNat - run.1 : Nat) : Int) := by omega
      rw [hsub]
      exact_mod_cast hstep)
    have hcapital : c.toNat = 'Σ'.toNat := by
      show c.toNat = 0x3A3
      omega
    rw [← Char.ofNat_toNat c, hcapital, Char.ofNat_toNat]

/-- The dotted capital is the lower case of itself alone. -/
theorem lowerChar_eq_dotted (h : lowerChar c = 'İ') : c = 'İ' := by
  rcases lowerChar_cases c with hsame | ⟨run, hleads⟩
  · exact hsame.symm.trans h
  · have hdotted := hleads.small.holds_hulls
    rw [h] at hdotted
    cases hdotted.symm.trans letters_sound.2.2.2.2

end

end ApiContract
