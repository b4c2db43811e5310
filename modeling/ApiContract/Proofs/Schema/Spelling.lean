import ApiContract.Proofs.Schema.Targets
import ApiContract.Schema.Compiled

/-! # Spellings of references

A reference may spell the keys on its way with percent escapes. The evaluation of a schema takes them back;
the guard, the places in a schema and the inlining of parameters go along a reference as it is written.

* `decodedReference`: a reference with its escapes taken back.
* `resolve?_decodedReference`: as it is decoded, a reference leads where evaluation goes.
* `FollowedAlike`: a reference that leads to one place in both ways, in every document.
* `followedAlike_iff`: these are the references without escapes.
* `escapedReference_unresolved`: a component that evaluation finds and the other way misses. -/

set_option autoImplicit false

namespace ApiContract

/-! ## Decoded references -/

/-- A reference with its percent escapes taken back. -/
def decodedReference (reference : String) : String :=
  String.ofList (utf8Decode (percentBytes false reference.toList))

theorem utf8Decode_cons {b : Nat} (h : b < 0x80) (bytes : List Nat) :
    utf8Decode (b :: bytes) = Char.ofNat b :: utf8Decode bytes := by
  unfold utf8Decode
  rw [utf8DecodeFrom, utf8Start, if_pos h]
  rfl

theorem percentBytes_cons {c : Char} (hescape : c ≠ '%') (hplus : c ≠ '+') (hascii : c.toNat < 128)
    (rest : List Char) : percentBytes false (c :: rest) = c.toNat :: percentBytes false rest := by
  rw [percentBytes, utf8Encode_singleton hascii]
  · rfl
  · intro a b others heq
    exact absurd heq hescape
  · intro heq
    exact absurd heq hplus

/-- The number sign of a pointer and its first slash stand for themselves. -/
theorem toList_decodedReference {reference : String} {path : List Char}
    (h : reference.toList = '#' :: '/' :: path) : (decodedReference reference).toList =
      '#' :: '/' :: utf8Decode (percentBytes false path) := by
  rw [decodedReference, String.toList_ofList, h, percentBytes_cons (by decide) (by decide) (by decide),
    percentBytes_cons (by decide) (by decide) (by decide), utf8Decode_cons (by decide),
    utf8Decode_cons (by decide)]
  rfl

/-- A reference that leads somewhere is the number sign alone, or a pointer whose bytes form a text. -/
theorem exists_path_of_targetOf {root target : Json} {reference : String}
    (h : targetOf root reference = .ok target) (hlocal : reference.toList.head? = some '#') :
    Uri.fault? reference = none ∧
      (reference.toList = ['#'] ∧ root = target ∨ ∃ path, reference.toList = '#' :: '/' :: path ∧
        isUtf8 (percentBytes false path) = true ∧
          followSteps (String.ofList ('/' :: path)) root
            (splitSlashes (String.ofList (utf8Decode (percentBytes false path)))) = .ok target) := by
  unfold targetOf at h
  cases hfault : Uri.fault? reference with
  | some reason => simp only [hfault] at h; cases h
  | none =>
    refine ⟨rfl, ?_⟩
    obtain ⟨rest, hchars⟩ : ∃ rest, reference.toList = '#' :: rest := List.head?_eq_some_iff.1 hlocal
    simp only [hfault, localFragment?, hchars, targetOfFragment, String.toList_ofList] at h
    cases rest with
    | nil =>
      cases h
      exact .inl ⟨hchars, rfl⟩
    | cons c path =>
      by_cases hc : c = '/'
      · subst hc
        simp only at h
        split at h
        · rename_i hbytes
          exact .inr ⟨path, hchars, hbytes, h⟩
        · cases h
      · split at h
        · rename_i heq
          cases heq
        · rename_i heq
          cases heq
          exact absurd rfl hc
        · split at h <;> cases h

/-- Where evaluation goes along a reference, the decoded reference leads as it is written. -/
theorem resolve?_decodedReference {root target : Json} {reference : String}
    (h : targetOf root reference = .ok target) (hlocal : reference.toList.head? = some '#') :
    root.resolve? (decodedReference reference) = some target := by
  obtain ⟨-, ⟨hchars, rfl⟩ | ⟨path, hchars, -, hsteps⟩⟩ := exists_path_of_targetOf h hlocal
  · have hdecoded : decodedReference reference = "#" := by
      rw [decodedReference, hchars]
      rfl
    rw [hdecoded]
    rfl
  · rw [Json.resolve?, pointerSteps?, toList_decodedReference hchars]
    exact follow?_of_followSteps hsteps

/-! ## What escapes weigh

Percent signs and twos are counted: an escape has more of them than the byte it stands for, and reading the
steps of a pointer leaves their number alone. So the steps of a reference with escapes are not those of the
decoded reference. -/

def isEscapeMark (c : Char) : Bool := c = '%' || c = '2'

def isEscapeByte (b : Nat) : Bool := b = 0x25 || b = 0x32

theorem countP_unescapeStepChars (text : List Char) :
    (unescapeStepChars text).countP isEscapeMark = text.countP isEscapeMark := by
  fun_induction unescapeStepChars text with
  | case1 => rfl
  | case2 rest ih => simp [isEscapeMark, ih]
  | case3 rest ih => simp [isEscapeMark, ih]
  | case4 c rest _ _ ih => rw [List.countP_cons, List.countP_cons, ih]

theorem countP_flatten_splitOn (text : List Char) :
    (text.splitOn '/').flatten.countP isEscapeMark = text.countP isEscapeMark := by
  have hslash : ¬ isEscapeMark '/' = true := by decide
  induction text with
  | nil => rfl
  | cons c rest ih =>
    rw [List.splitOn] at ih ⊢
    rw [List.splitOnP_cons_eq_if_modifyHead]
    by_cases hc : c = '/'
    · subst hc
      rw [if_pos (by decide), List.flatten_cons, List.nil_append, List.countP_cons_of_neg hslash, ih]
    · rw [if_neg (by simpa using hc), List.countP_cons, ← ih]
      cases hpieces : rest.splitOnP (· == '/') with
      | nil => exact absurd hpieces (List.splitOnP_ne_nil _ _)
      | cons piece others =>
        rw [List.modifyHead_cons, List.flatten_cons, List.cons_append, List.countP_cons,
          List.flatten_cons]

theorem countP_flatMap_unescapeStep (pieces : List (List Char)) :
    (pieces.flatMap fun piece => (unescapeStep (String.ofList piece)).toList).countP isEscapeMark =
      pieces.flatten.countP isEscapeMark := by
  induction pieces with
  | nil => rfl
  | cons piece rest ih =>
    rw [List.flatMap_cons, List.flatten_cons, List.countP_append, List.countP_append, ih, unescapeStep,
      String.toList_ofList, String.toList_ofList, countP_unescapeStepChars]

/-- The marks of a pointer are those of its steps. -/
theorem countP_pointerSteps? {reference : String} {steps : List String}
    (h : pointerSteps? reference = some steps) :
    (steps.flatMap String.toList).countP isEscapeMark = reference.toList.countP isEscapeMark := by
  unfold pointerSteps? at h
  split at h
  · rename_i hchars
    cases h
    rw [hchars]
    rfl
  · rename_i path hchars
    cases h
    have hhash : ¬ isEscapeMark '#' = true := by decide
    have hslash : ¬ isEscapeMark '/' = true := by decide
    rw [hchars, List.countP_cons_of_neg hhash, List.countP_cons_of_neg hslash, splitSlashes,
      String.toList_ofList, List.map_map, List.flatMap_map]
    exact (countP_flatMap_unescapeStep _).trans (countP_flatten_splitOn path)
  · cases h

theorem countP_le_utf8Encode (text : List Char) :
    text.countP isEscapeMark ≤ (utf8Encode text).countP isEscapeByte := by
  induction text with
  | nil => exact Nat.le_refl 0
  | cons c rest ih =>
    have hsplit : utf8Encode (c :: rest) = utf8Encode [c] ++ utf8Encode rest := by
      simp [utf8Encode]
    rw [hsplit, List.countP_append, List.countP_cons]
    split
    · rename_i hc
      have hone : (utf8Encode [c]).countP isEscapeByte = 1 := by
        rw [isEscapeMark, Bool.or_eq_true, decide_eq_true_eq, decide_eq_true_eq] at hc
        rcases hc with rfl | rfl <;> decide
      omega
    · omega

/-- What is needed of a hexadecimal digit: its value tells whether it is a two. -/
theorem hexValue?_of_isHexDigit {c : Char} (h : isHexDigit c = true) :
    ∃ x, percentBytes.hexValue? c = some x ∧ x < 16 ∧ (x = 2 → c = '2') ∧ c ≠ '%' := by
  have hle : ∀ a b : Char, a ≤ b ↔ a.toNat ≤ b.toNat := fun a b => Iff.rfl
  have htwo : c.toNat = '2'.toNat → c = '2' := fun heq => Char.toNat_inj.1 heq
  have hmark : c = '%' → c.toNat = '%'.toNat := fun heq => congrArg Char.toNat heq
  unfold isHexDigit digitValue? at h
  unfold percentBytes.hexValue?
  simp only [hle, Char.reduceToNat] at h htwo hmark ⊢
  split at h
  · rename_i d hd
    rw [decide_eq_true_eq] at h
    split at hd
    · rename_i hdigit
      rw [if_pos hdigit]
      exact ⟨_, rfl, by omega, fun _ => htwo (by omega), fun heq => by have := hmark heq; omega⟩
    · rename_i hdigit
      rw [if_neg hdigit]
      split at hd
      · cases hd
        rw [if_pos (by omega)]
        exact ⟨_, rfl, by omega, fun _ => by omega, fun heq => by have := hmark heq; omega⟩
      · rw [if_neg (by omega)]
        split at hd
        · cases hd
          rw [if_pos (by omega)]
          exact ⟨_, rfl, by omega, fun _ => by omega, fun heq => by have := hmark heq; omega⟩
        · cases hd
  · cases h

namespace Uri

variable {inFragment : Bool} {place : Nat} {c : Char} {rest : List Char}

theorem faultFrom_tail (hne : c ≠ '%') (h : faultFrom inFragment place (c :: rest) = none) :
    c.toNat < 128 ∧ ∃ within next, faultFrom within next rest = none := by
  rw [faultFrom_cons hne] at h
  by_cases hhash : (c = '#' && !inFragment) = true
  · rw [if_pos hhash] at h
    rw [Bool.and_eq_true, decide_eq_true_eq] at hhash
    exact ⟨hhash.1 ▸ by decide, true, _, h⟩
  · rw [if_neg hhash] at h
    by_cases hc : isFragmentChar false c = true
    · rw [if_pos hc] at h
      exact ⟨lt_of_isFragmentChar hc, inFragment, _, h⟩
    · rw [if_neg hc] at h
      cases h

/-- Two digits follow a percent sign. -/
theorem faultFrom_escape (h : faultFrom inFragment place ('%' :: rest) = none) :
    ∃ a b others, rest = a :: b :: others ∧ isHexDigit a = true ∧ isHexDigit b = true ∧
      faultFrom inFragment (place + 1) rest = none := by
  match rest with
  | [] => cases h
  | [_] => cases h
  | a :: b :: others =>
    rw [faultFrom] at h
    split at h
    · rename_i hhex
      rw [Bool.and_eq_true] at hhex
      exact ⟨a, b, others, rfl, hhex.1, hhex.2, h⟩
    · cases h

end Uri

/-- Every escape has a mark more than its byte. -/
theorem countP_percentBytes {inFragment : Bool} {place : Nat} {text : List Char}
    (h : Uri.faultFrom inFragment place text = none) :
    (percentBytes false text).countP isEscapeByte + text.count '%' ≤ text.countP isEscapeMark := by
  fun_induction percentBytes false text generalizing inFragment place with
  | case1 => exact Nat.le_refl 0
  | case2 a b rest x y hy hx ih =>
    obtain ⟨_, _, _, heq, ha, hb, hrest⟩ := Uri.faultFrom_escape h
    cases heq
    obtain ⟨_, hfirst, hxlt, hxtwo, hane⟩ := hexValue?_of_isHexDigit ha
    obtain ⟨_, hsecond, hylt, hytwo, hbne⟩ := hexValue?_of_isHexDigit hb
    cases hx.symm.trans hfirst
    cases hy.symm.trans hsecond
    obtain ⟨-, _, _, hrest⟩ := Uri.faultFrom_tail hane hrest
    obtain ⟨-, _, _, hrest⟩ := Uri.faultFrom_tail hbne hrest
    have hbehind := ih hrest
    have hbyte : isEscapeByte (x * 16 + y) = true → isEscapeMark a = true ∨ isEscapeMark b = true := by
      intro hmark
      rw [isEscapeByte, Bool.or_eq_true, decide_eq_true_eq, decide_eq_true_eq] at hmark
      rcases hmark with hmark | hmark
      · exact .inl (by rw [hxtwo (by omega)]; rfl)
      · exact .inr (by rw [hytwo (by omega)]; rfl)
    have hsign : isEscapeMark '%' = true := rfl
    simp only [List.countP_cons, List.count_cons, hsign, if_true, beq_self_eq_true, beq_iff_eq, hane,
      hbne, if_false]
    by_cases hmark : isEscapeByte (x * 16 + y) = true
    · rcases hbyte hmark with hdigit | hdigit
      · rw [if_pos hmark, if_pos hdigit]
        omega
      · rw [if_pos hmark, if_pos hdigit]
        omega
    · rw [if_neg hmark]
      omega
  | case3 a b rest hhex ih =>
    obtain ⟨_, _, _, heq, ha, hb, -⟩ := Uri.faultFrom_escape h
    cases heq
    obtain ⟨_, hfirst, -⟩ := hexValue?_of_isHexDigit ha
    obtain ⟨_, hsecond, -⟩ := hexValue?_of_isHexDigit hb
    exact absurd hsecond (hhex _ _ hfirst)
  | case4 rest ih =>
    obtain ⟨-, _, _, hrest⟩ := Uri.faultFrom_tail (by decide) h
    simpa [isEscapeByte, isEscapeMark] using ih hrest
  | case5 c rest hescape _ ih =>
    have hne : c ≠ '%' := by
      rintro rfl
      obtain ⟨a, b, others, hrest, -⟩ := Uri.faultFrom_escape h
      exact hescape a b others rfl hrest
    obtain ⟨hascii, _, _, hrest⟩ := Uri.faultFrom_tail hne h
    have hbehind := ih hrest
    have hbyte : isEscapeByte c.toNat = true → isEscapeMark c = true := by
      intro hmark
      rw [isEscapeByte, Bool.or_eq_true, decide_eq_true_eq, decide_eq_true_eq] at hmark
      have hchar : ∀ d : Char, c.toNat = d.toNat → c = d := fun d heq => Char.toNat_inj.1 heq
      rcases hmark with hmark | hmark
      · exact absurd (hchar '%' hmark) hne
      · rw [hchar '2' hmark]
        rfl
    rw [utf8Encode_singleton hascii, List.singleton_append, List.countP_cons, List.countP_cons,
      List.count_cons_of_ne hne]
    by_cases hmark : isEscapeByte c.toNat = true
    · rw [if_pos hmark, if_pos (hbyte hmark)]
      omega
    · rw [if_neg hmark]
      omega

/-- A reference with escapes has other steps than the decoded one. -/
theorem pointerSteps?_decodedReference_ne {reference : String} {path : List Char} {steps : List String}
    (hfault : Uri.fault? reference = none) (hchars : reference.toList = '#' :: '/' :: path)
    (hbytes : isUtf8 (percentBytes false path) = true) (hescape : '%' ∈ reference.toList)
    (h : pointerSteps? reference = some steps) :
    pointerSteps? (decodedReference reference) ≠ some steps := by
  intro hdecoded
  have hsame := (countP_pointerSteps? hdecoded).symm.trans (countP_pointerSteps? h)
  have hmarks : (percentBytes false reference.toList).countP isEscapeByte + reference.toList.count '%' ≤
      reference.toList.countP isEscapeMark := countP_percentBytes hfault
  have hpositive := List.count_pos_iff.2 hescape
  have hencoded : utf8Encode (utf8Decode (percentBytes false path)) = percentBytes false path :=
    eq_of_beq hbytes
  have hmore := countP_le_utf8Encode (utf8Decode (percentBytes false path))
  rw [hencoded] at hmore
  rw [toList_decodedReference hchars] at hsame
  rw [hchars, percentBytes_cons (by decide) (by decide) (by decide),
    percentBytes_cons (by decide) (by decide) (by decide)] at hmarks
  rw [hchars] at hsame hpositive
  have hhash : isEscapeMark '#' = false := rfl
  have hslash : isEscapeMark '/' = false := rfl
  have hhashByte : isEscapeByte '#'.toNat = false := rfl
  have hslashByte : isEscapeByte '/'.toNat = false := rfl
  simp only [List.countP_cons, hhash, hslash, hhashByte, hslashByte, Bool.false_eq_true,
    if_false] at hsame hmarks
  omega

/-! ## References that are followed alike -/

/-- A value that can be reached by some steps only. -/
def chainOf : List String → Json
  | [] => .null
  | key :: rest => .object [(key, chainOf rest)]

theorem follow?_chainOf (keys : List String) : (chainOf keys).follow? keys = some .null := by
  induction keys with
  | nil => rfl
  | cons key rest ih =>
    rw [chainOf, Json.follow?, Json.child?]
    simpa [Fields.get?] using ih

theorem eq_of_follow?_chainOf {keys steps : List String}
    (h : (chainOf keys).follow? steps = some .null) : steps = keys := by
  induction keys generalizing steps with
  | nil =>
    cases steps with
    | nil => rfl
    | cons step rest => cases h
  | cons key keys ih =>
    cases steps with
    | nil => cases h
    | cons step rest =>
      rw [chainOf, Json.follow?, Json.child?, Fields.get?] at h
      by_cases hkey : key = step
      · subst hkey
        rw [if_pos (beq_self_eq_true key), Option.bind_some] at h
        rw [ih h]
      · rw [if_neg (by simpa using hkey)] at h
        cases h

/-- Wherever evaluation goes along a reference, it leads as it is written. -/
def FollowedAlike (reference : String) : Prop :=
  ∀ root target, targetOf root reference = .ok target → root.resolve? reference = some target

/-- A local reference leads evaluation to what the decoded reference says, so both ways agree on a
reference without escapes. On one with escapes, if it can be followed at all, there is a document in which
they do not. -/
theorem followedAlike_iff {reference : String} (hlocal : reference.toList.head? = some '#') :
    (∀ root target, targetOf root reference = .ok target →
      root.resolve? (decodedReference reference) = some target) ∧
    ((∃ root target, targetOf root reference = .ok target) →
      (FollowedAlike reference ↔ '%' ∉ reference.toList)) := by
  refine ⟨fun root target h => resolve?_decodedReference h hlocal, ?_⟩
  rintro ⟨given, found, hfound⟩
  refine ⟨fun halike hescape => ?_, fun hplain root target h => resolve?_of_targetOf h hlocal hplain⟩
  obtain ⟨hfault, ⟨hchars, -⟩ | ⟨path, hchars, hbytes, -⟩⟩ := exists_path_of_targetOf hfound hlocal
  · rw [hchars] at hescape
    cases hescape with
    | tail _ h => cases h
  · -- a document that holds nothing but the way of the decoded reference
    have hdecoded : pointerSteps? (decodedReference reference) =
        some ((splitSlashes (String.ofList (utf8Decode (percentBytes false path)))).map unescapeStep) := by
      rw [pointerSteps?, toList_decodedReference hchars]
      rfl
    generalize hkeys : (splitSlashes (String.ofList (utf8Decode (percentBytes false path)))).map
      unescapeStep = keys at hdecoded
    have htarget : targetOf (chainOf keys) reference = .ok .null := by
      simp only [targetOf, hfault, localFragment?, hchars, targetOfFragment, String.toList_ofList, hbytes,
        if_true]
      exact followSteps_of_follow? (hkeys ▸ follow?_chainOf keys)
    obtain ⟨steps, hsteps, hfollow⟩ := Option.bind_eq_some_iff.1 (halike _ _ htarget)
    rw [eq_of_follow?_chainOf hfollow] at hsteps
    exact pointerSteps?_decodedReference_ne hfault hchars hbytes hescape hsteps hdecoded

/-- Components with a space in the name of one. -/
def spacedComponents : Json := .object [("schemas", .object [("My Pet", .object [])])]

def spacedRoot : Json := CompiledSchema.rootOf (.object []) (some spacedComponents)

theorem spacedReference_followed :
    spacedRoot.resolve? (decodedReference "#/components/schemas/My%20Pet") = some (.object []) ∧
      ¬ FollowedAlike "#/components/schemas/My%20Pet" := by
  have htarget : targetOf spacedRoot "#/components/schemas/My%20Pet" = .ok (.object []) := rfl
  have hlocal : "#/components/schemas/My%20Pet".toList.head? = some '#' := rfl
  obtain ⟨hdecoded, hescapes⟩ := followedAlike_iff hlocal
  refine ⟨hdecoded _ _ htarget, fun halike => ?_⟩
  exact (hescapes ⟨_, _, htarget⟩).1 halike (by decide)

/-- A schema beside these components compiles, and the reference to the component in a URI finds it for
evaluation alone. -/
theorem escapedReference_unresolved :
    CompiledSchema.compile "#/x" (.object []) (some spacedComponents) = .ok ⟨"#/x", spacedRoot, false⟩ ∧
      targetOf spacedRoot "#/components/schemas/My%20Pet" = .ok (.object []) ∧
      spacedRoot.resolve? "#/components/schemas/My%20Pet" = none := by
  have hforeign : foreignFault? spacedRoot = none := by
    unfold foreignFault?
    rw [spacedRoot, CompiledSchema.rootOf, spacedComponents, Fields.insertIfAbsent]
    rw [nestedSchemas]
    rfl
  have hmeta : metaFault? spacedRoot = none := by
    unfold metaFault? Evaluation.findings metaSchema
    rw [Evaluation.findingsWith]
    rfl
  have hkeywords : keywordFault? spacedRoot = none := by
    unfold keywordFault?
    rw [spacedRoot, CompiledSchema.rootOf, spacedComponents, Fields.insertIfAbsent]
    rw [checkKeywords]
    rfl
  have hreaches : reachesDiscriminator spacedRoot = false := by
    have hbare : withoutComponents spacedRoot = .object [] := rfl
    unfold reachesDiscriminator
    rw [hbare, searchCases]
    rfl
  have hroot : CompiledSchema.rootOf (.object []) (some spacedComponents) = spacedRoot := rfl
  refine ⟨?_, rfl, rfl⟩
  rw [CompiledSchema.compile_of_faultless hroot hforeign hmeta hkeywords, hreaches]

end ApiContract
