import ApiContract.Proofs.Json.Pointers
import ApiContract.Schema.Target

/-! # Two ways of following a reference

A reference is followed by the steps of a pointer, once with percent encoding and once without. Where
nothing is encoded both ways lead to the same part.

* `Uri.lt_of_fault?_none`: a reference without a fault is ASCII.
* `utf8Decode_percentBytes`: decoding ASCII text without percent signs changes nothing.
* `resolve?_of_targetOf`, `targetOf_eq_ok_iff`: what the one way finds, the other finds too. -/

set_option autoImplicit false

namespace ApiContract

/-! ## Characters of references -/

namespace Uri

theorem lt_of_isSubDelimiter {c : Char} (h : isSubDelimiter c = true) : c.toNat < 128 := by
  have hall : ("!$&'()*+,;=".toList.all fun d => d.toNat < 128) = true := by decide
  exact of_decide_eq_true (List.all_eq_true.1 hall c (List.contains_iff_mem.1 h))

theorem lt_of_isFragmentChar {c : Char} (h : isFragmentChar false c = true) : c.toNat < 128 := by
  have hunreserved : isUnreserved false c = true → c.toNat < 128 := by
    intro hc
    unfold isUnreserved at hc
    by_cases hn : c.toNat < 128
    · exact hn
    · simp [hn] at hc
  simp only [isFragmentChar, isPathChar, isNameChar, Bool.or_eq_true, decide_eq_true_eq] at h
  rcases h with ((((h | h) | rfl) | rfl) | rfl) | rfl
  · exact hunreserved h
  · exact lt_of_isSubDelimiter h
  all_goals decide

theorem faultFrom_cons {inFragment : Bool} {place : Nat} {c : Char} {rest : List Char}
    (hne : c ≠ '%') : faultFrom inFragment place (c :: rest) =
      if c = '#' && !inFragment then faultFrom true (place + 1) rest
      else if isFragmentChar false c then faultFrom inFragment (place + c.utf8Size) rest
      else some ("unexpected character at index " ++ naturalText place) := by
  rw [faultFrom]
  intro heq
  exact hne heq

theorem lt_of_faultFrom_none {inFragment : Bool} {place : Nat} {text : List Char}
    (h : faultFrom inFragment place text = none) (hplain : '%' ∉ text) :
    ∀ c ∈ text, c.toNat < 128 := by
  induction text generalizing inFragment place with
  | nil => simp
  | cons c rest ih =>
    have hrest : '%' ∉ rest := fun hmem => hplain (List.mem_cons_of_mem _ hmem)
    rw [faultFrom_cons fun e => hplain (e ▸ List.mem_cons_self ..)] at h
    rw [List.forall_mem_cons]
    by_cases hhash : (c = '#' && !inFragment) = true
    · rw [if_pos hhash] at h
      rw [Bool.and_eq_true, decide_eq_true_eq] at hhash
      exact ⟨hhash.1 ▸ by decide, ih h hrest⟩
    · rw [if_neg hhash] at h
      by_cases hc : isFragmentChar false c = true
      · rw [if_pos hc] at h
        exact ⟨lt_of_isFragmentChar hc, ih h hrest⟩
      · rw [if_neg hc] at h
        cases h

/-- A reference without a fault is ASCII, but for what is encoded. -/
theorem lt_of_fault?_none {text : String} (h : fault? text = none) (hplain : '%' ∉ text.toList) :
    ∀ c ∈ text.toList, c.toNat < 128 := lt_of_faultFrom_none h hplain

end Uri

/-! ## Plain bytes -/

theorem utf8Encode_singleton {c : Char} (h : c.toNat < 128) : utf8Encode [c] = [c.toNat] := by
  have hchar : String.utf8EncodeChar c = [UInt8.ofNat c.toNat] :=
    if_pos (Nat.le_of_lt_succ h)
  have hbyte : (UInt8.ofNat c.toNat).toNat = c.toNat := by
    rw [UInt8.toNat_ofNat']
    omega
  rw [utf8Encode, List.flatMap_singleton, hchar, List.map_singleton, hbyte]

theorem percentBytes_of_plain {text : List Char} (hascii : ∀ c ∈ text, c.toNat < 128)
    (hplain : '%' ∉ text) : percentBytes false text = text.map Char.toNat := by
  induction text with
  | nil => rfl
  | cons c rest ih =>
    rw [List.forall_mem_cons] at hascii
    have hrest := ih hascii.2 fun hmem => hplain (List.mem_cons_of_mem _ hmem)
    have hne : c ≠ '%' := fun e => hplain (e ▸ List.mem_cons_self ..)
    by_cases hplus : c = '+'
    · subst hplus
      rw [percentBytes, hrest]
      rfl
    · rw [percentBytes, hrest, utf8Encode_singleton hascii.1]
      · rfl
      · intro a b tail heq
        exact absurd heq hne
      · intro heq
        exact absurd heq hplus

theorem utf8Decode_of_ascii {text : List Char} (hascii : ∀ c ∈ text, c.toNat < 128) :
    utf8Decode (text.map Char.toNat) = text := by
  unfold utf8Decode
  induction text with
  | nil => rfl
  | cons c rest ih =>
    rw [List.forall_mem_cons] at hascii
    have hstart : utf8Start c.toNat = ([c], none) := by
      rw [utf8Start, if_pos hascii.1, Char.ofNat_toNat]
    rw [List.map_cons, utf8DecodeFrom, hstart]
    show [c] ++ utf8DecodeFrom none (rest.map Char.toNat) = c :: rest
    rw [ih hascii.2]
    rfl

theorem isUtf8_of_ascii {text : List Char} (hascii : ∀ c ∈ text, c.toNat < 128) :
    isUtf8 (text.map Char.toNat) = true := by
  have hencode : utf8Encode text = text.map Char.toNat := by
    induction text with
    | nil => rfl
    | cons c rest ih =>
      rw [List.forall_mem_cons] at hascii
      have hfirst := utf8Encode_singleton hascii.1
      unfold utf8Encode at ih hfirst ⊢
      rw [List.flatMap_singleton] at hfirst
      rw [List.flatMap_cons, List.map_cons, hfirst, ih hascii.2]
      rfl
  rw [isUtf8, utf8Decode_of_ascii hascii, hencode, beq_self_eq_true]

/-! ## Steps -/

theorem unescapeStepChars_of_plain {text : List Char} (h : '~' ∉ text) :
    unescapeStepChars text = text := by
  induction text with
  | nil => rfl
  | cons c rest ih =>
    have hne : c ≠ '~' := fun e => h (e ▸ List.mem_cons_self ..)
    rw [unescapeStepChars_cons hne, ih fun hmem => h (List.mem_cons_of_mem _ hmem)]

/-- A tilde leaves a character that is no digit. -/
theorem mem_unescapeStepChars {text : List Char} (h : '~' ∈ text) :
    '~' ∈ unescapeStepChars text ∨ '/' ∈ unescapeStepChars text := by
  fun_induction unescapeStepChars text with
  | case1 => cases h
  | case2 rest ih => exact .inl (List.mem_cons_self ..)
  | case3 rest ih => exact .inr (List.mem_cons_self ..)
  | case4 c rest _ _ ih =>
    rcases List.mem_cons.1 h with rfl | hrest
    · exact .inl (List.mem_cons_self ..)
    · exact (ih hrest).imp (List.mem_cons_of_mem _) (List.mem_cons_of_mem _)

theorem not_mem_of_digitsValue? {base read n : Nat} {text : List Char} {mark : Char}
    (hmark : digitValue? mark = none) (h : digitsValue? base read text = some n) : mark ∉ text := by
  induction text generalizing read with
  | nil => simp
  | cons c rest ih =>
    rw [digitsValue?] at h
    cases hd : digitValue? c with
    | none => rw [hd] at h; cases h
    | some d =>
      simp only [hd] at h
      intro hmem
      rcases List.mem_cons.1 hmem with rfl | hrest
      · rw [hmark] at hd
        cases hd
      · split at h
        · exact ih h hrest
        · cases h

theorem not_mem_of_index {step : String} {i : Nat} {mark : Char} (hmark : digitValue? mark = none)
    (hplus : mark ≠ '+') (h : indexOfStep? step = some i) : mark ∉ step.toList := by
  obtain ⟨n, hn, -⟩ := Option.bind_eq_some_iff.1 h
  have hdigits : ∀ {digits : List Char},
      (if digits.isEmpty = true then none else digitsValue? 10 0 digits) = some n →
        mark ∉ digits := by
    intro digits hvalue
    split at hvalue
    · cases hvalue
    · exact not_mem_of_digitsValue? hmark hvalue
  unfold unsigned? at hn
  split at hn
  · rename_i rest heq
    rw [heq]
    intro hmem
    rcases List.mem_cons.1 hmem with habs | hrest
    · exact hplus habs
    · exact hdigits hn hrest
  · exact hdigits hn

theorem unescapeStep_of_plain {step : String} (h : '~' ∉ step.toList) : unescapeStep step = step := by
  rw [unescapeStep, unescapeStepChars_of_plain h, String.ofList_toList]

/-- A step into an array is the same before and after. -/
theorem unescapeStep_of_index {step : String} {i : Nat} (h : indexOfStep? step = some i) :
    unescapeStep step = step :=
  unescapeStep_of_plain (not_mem_of_index (by decide) (by decide) h)

theorem indexOfStep?_of_unescapeStep {step : String} {i : Nat}
    (h : indexOfStep? (unescapeStep step) = some i) : indexOfStep? step = some i := by
  have hplain : '~' ∉ step.toList := by
    intro hmem
    have htilde : '~' ∉ (unescapeStep step).toList := not_mem_of_index (by decide) (by decide) h
    have hslash : '/' ∉ (unescapeStep step).toList := not_mem_of_index (by decide) (by decide) h
    rw [unescapeStep, String.toList_ofList] at htilde hslash
    exact (mem_unescapeStepChars hmem).elim htilde hslash
  rwa [unescapeStep_of_plain hplain] at h

theorem follow?_of_followSteps {pointer : String} {steps : List String} {value target : Json}
    (h : followSteps pointer value steps = .ok target) :
    value.follow? (steps.map unescapeStep) = some target := by
  induction steps generalizing value with
  | nil =>
    cases h
    rfl
  | cons step rest ih =>
    have hchild : ∃ part, value.child? (unescapeStep step) = some part ∧
        followSteps pointer part rest = .ok target := by
      cases value with
      | array items =>
        rw [followSteps] at h
        cases hindex : indexOfStep? step with
        | none => simp only [hindex] at h; cases h
        | some i =>
          simp only [hindex] at h
          cases hitem : items[i]? with
          | none => simp only [hitem] at h; cases h
          | some item =>
            simp only [hitem] at h
            refine ⟨item, ?_, h⟩
            rw [unescapeStep_of_index hindex, Json.child?, hindex]
            exact hitem
      | _ =>
        rw [followSteps] at h
        · split at h
          · rename_i part hpart
            exact ⟨part, hpart, h⟩
          · cases h
        · intro items heq
          cases heq
    obtain ⟨part, hpart, hrest⟩ := hchild
    rw [List.map_cons, Json.follow?, hpart]
    exact ih hrest

theorem followSteps_of_follow? {pointer : String} {steps : List String} {value target : Json}
    (h : value.follow? (steps.map unescapeStep) = some target) :
    followSteps pointer value steps = .ok target := by
  induction steps generalizing value with
  | nil =>
    cases h
    rfl
  | cons step rest ih =>
    rw [List.map_cons, Json.follow?, Option.bind_eq_some_iff] at h
    obtain ⟨part, hpart, hrest⟩ := h
    cases value with
    | array items =>
      obtain ⟨i, hindex, hitem⟩ := Option.bind_eq_some_iff.1 hpart
      rw [followSteps]
      simp only [indexOfStep?_of_unescapeStep hindex, hitem]
      exact ih hrest
    | _ =>
      rw [followSteps]
      · simp only [hpart]
        exact ih hrest
      · intro items heq
        cases heq

/-! ## References -/

/-- A local reference without encoded characters leads to one place. -/
theorem resolve?_of_targetOf {root target : Json} {reference : String}
    (h : targetOf root reference = .ok target) (hlocal : reference.toList.head? = some '#')
    (hplain : '%' ∉ reference.toList) : root.resolve? reference = some target := by
  unfold targetOf at h
  cases hfault : Uri.fault? reference with
  | some reason => simp only [hfault] at h; cases h
  | none =>
    have hascii := Uri.lt_of_fault?_none hfault hplain
    simp only [hfault] at h
    cases hchars : reference.toList with
    | nil => rw [hchars] at hlocal; cases hlocal
    | cons c rest =>
      rw [hchars] at hlocal
      cases hlocal
      rw [hchars, List.forall_mem_cons] at hascii
      rw [hchars] at hplain
      have hrest : '%' ∉ rest := fun hmem => hplain (List.mem_cons_of_mem _ hmem)
      simp only [localFragment?, hchars, targetOfFragment, String.toList_ofList] at h
      rw [Json.resolve?, pointerSteps?, hchars]
      cases rest with
      | nil =>
        cases h
        rfl
      | cons d path =>
        have hpath : '%' ∉ path := fun hmem => hrest (List.mem_cons_of_mem _ hmem)
        have hasciiPath : ∀ c ∈ path, c.toNat < 128 :=
          fun c hc => hascii.2 c (List.mem_cons_of_mem _ hc)
        by_cases hslash : d = '/'
        · subst hslash
          simp only [percentBytes_of_plain hasciiPath hpath, utf8Decode_of_ascii hasciiPath] at h
          split at h
          · show (some ((splitSlashes (String.ofList path)).map unescapeStep)).bind root.follow? = _
            exact follow?_of_followSteps h
          · cases h
        · split at h
          · rename_i heq
            cases heq
          · rename_i heq
            exact absurd (List.cons.inj heq).1 hslash
          · split at h <;> cases h

/-- A pointer into the document in which nothing is encoded. -/
structure IsPlainReference (reference : String) : Prop where
  isLocal : reference.toList.head? = some '#'
  plain : '%' ∉ reference.toList
  valid : Uri.fault? reference = none

theorem targetOf_of_resolve? {root target : Json} {reference : String}
    (hreference : IsPlainReference reference) (h : root.resolve? reference = some target) :
    targetOf root reference = .ok target := by
  have hascii := Uri.lt_of_fault?_none hreference.valid hreference.plain
  have hplain := hreference.plain
  obtain ⟨steps, hsteps, hfollow⟩ := Option.bind_eq_some_iff.1 h
  unfold pointerSteps? at hsteps
  unfold targetOf
  rw [hreference.valid]
  split at hsteps
  · rename_i hchars
    cases hsteps
    cases hfollow
    simp only [localFragment?, hchars, targetOfFragment, String.toList_ofList]
  · rename_i path hchars
    cases hsteps
    rw [hchars] at hascii hplain
    have hpath : '%' ∉ path :=
      fun hmem => hplain (List.mem_cons_of_mem _ (List.mem_cons_of_mem _ hmem))
    have hasciiPath : ∀ c ∈ path, c.toNat < 128 :=
      fun c hc => hascii c (List.mem_cons_of_mem _ (List.mem_cons_of_mem _ hc))
    simp only [localFragment?, hchars, targetOfFragment, String.toList_ofList,
      percentBytes_of_plain hasciiPath hpath, utf8Decode_of_ascii hasciiPath,
      isUtf8_of_ascii hasciiPath, if_true]
    exact followSteps_of_follow? hfollow
  · cases hsteps

/-- Both ways lead to the same along a plain reference. -/
theorem targetOf_eq_ok_iff {root target : Json} {reference : String}
    (h : IsPlainReference reference) :
    targetOf root reference = .ok target ↔ root.resolve? reference = some target :=
  ⟨fun htarget => resolve?_of_targetOf htarget h.isLocal h.plain, targetOf_of_resolve? h⟩

end ApiContract
