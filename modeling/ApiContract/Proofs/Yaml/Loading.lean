import ApiContract.Proofs.Yaml.Entries
import ApiContract.Yaml.Resolution
import Mathlib

/-! # Loading keeps what a text says

What a text means is a value of which no mapping has a key twice. Written with texts for keys such a value keeps
all its entries, unless a mapping has a text and the flag or number of that text among its keys.

* `IsScalar`, `isScalar_resolvePlain`: what plain scalars are read as.
* `resolveEntries_distinct`: the step and the run of reading entries, whose keys are compared with those before.
* `isProper_of_valueOf`: what a text means has no key twice.
* `Value.withTextKeys_loses_nothing_iff`: when a value has no JSON form, and when it keeps all its entries. -/

set_option autoImplicit false

namespace ApiContract.Yaml

/-! ## Scalars -/

/-- A value has no parts, and a float is in the form of floats. -/
structure IsScalar (value : Value) : Prop where
  isLeaf : value.isLeaf = true
  isCanonical : value.IsCanonical

section

variable {text : String} {chars : List Char} {value : Value} {n : ℤ}

theorem isCanonical_of_not_float (h : ∀ x, value ≠ .float x) : value.IsCanonical := fun x hx => absurd hx (h x)

theorem isScalar_of_not_float (hleaf : value.isLeaf = true) (h : ∀ x, value ≠ .float x) : IsScalar value :=
  ⟨hleaf, isCanonical_of_not_float h⟩

/-- The words of the numbers that are not finite stand for them; of any other text the literal counts. -/
theorem isScalar_float? (h : float? chars = some value) : IsScalar value := by
  simp only [float?] at h
  split at h
  all_goals
    split at h
    · cases h
    · split at h
      · cases h
        exact isScalar_of_not_float rfl (by simp)
      · split at h
        · cases h
          exact isScalar_of_not_float rfl (by simp)
        · split at h
          · cases h
            exact isScalar_of_not_float rfl (by simp)
          · split at h
            · next x hliteral =>
              cases h
              exact ⟨rfl, fun y hy => by cases hy; exact Binary64.isCanonical_of_decimalLiteral? hliteral⟩
            · cases h

theorem isScalar_integerValue? (h : integerValue? n = some (.ok value)) : IsScalar value := by
  simp only [integerValue?] at h
  split at h
  · cases h
    exact isScalar_of_not_float rfl (by simp)
  · split at h <;> cases h

theorem isScalar_bind_integerValue? (h : (integer? chars).bind integerValue? = some (.ok value)) : IsScalar value := by
  obtain ⟨n, -, hn⟩ := Option.bind_eq_some_iff.1 h
  exact isScalar_integerValue? hn

theorem isScalar_resolvePlain (h : resolvePlain text = .ok value) : IsScalar value := by
  simp only [resolvePlain] at h
  split at h
  · cases h
    exact isScalar_of_not_float rfl (by simp)
  · split at h
    · cases h
      exact isScalar_of_not_float rfl (by simp)
    · split at h
      · next outcome hinteger => exact isScalar_bind_integerValue? (h ▸ hinteger)
      · split at h
        · cases h
          exact isScalar_of_not_float rfl (by simp)
        · cases hfloat : float? text.toList with
          | none =>
            rw [hfloat, Option.getD_none] at h
            cases h
            exact isScalar_of_not_float rfl (by simp)
          | some x =>
            rw [hfloat, Option.getD_some] at h
            cases h
            exact isScalar_float? hfloat

/-- A scalar with a tag of its own keeps it; otherwise nothing but the scalar is left. -/
theorem resolveScalar_cases {tag : Option String} {isPlain : Bool} (h : resolveScalar tag isPlain text = .ok value) :
    IsScalar value ∨ ∃ name inner, value = .tagged name inner ∧ IsScalar inner := by
  have hwritten : ∀ {inner}, (if isPlain then resolvePlain text else .ok (.string text)) = .ok inner →
      IsScalar inner := by
    intro inner hinner
    split at hinner
    · exact isScalar_resolvePlain hinner
    · cases hinner
      exact isScalar_of_not_float rfl (by simp)
  simp only [resolveScalar] at h
  split at h
  · exact .inl (hwritten h)
  · split at h
    · split at h
      · cases h
        exact .inl (isScalar_of_not_float rfl (by simp))
      · cases h
    · split at h
      · split at h
        · next outcome hinteger => exact .inl (isScalar_bind_integerValue? (h ▸ hinteger))
        · cases h
      · split at h
        · split at h
          · next x hfloat =>
            cases h
            exact .inl (isScalar_float? hfloat)
          · cases h
        · split at h
          · split at h
            · cases h
              exact .inl (isScalar_of_not_float rfl (by simp))
            · cases h
          · split at h
            · cases hinner : (if isPlain then resolvePlain text else .ok (.string text)) with
              | error message => rw [hinner] at h; cases h
              | ok inner =>
                rw [hinner] at h
                cases h
                exact .inr ⟨_, inner, rfl, hwritten hinner⟩
            · cases h
              exact .inl (isScalar_of_not_float rfl (by simp))

end

/-! ## Nodes -/

/-- What a node means: no mapping has a key twice, and a float is in the form of floats. -/
structure IsResolved (value : Value) : Prop where
  isProper : value.IsProper
  isCanonical : value.IsCanonical

section

variable {value : Value} {tag : Option String} {resolve : Node → Outcome Value}

theorem IsScalar.isResolved (h : IsScalar value) : IsResolved value :=
  ⟨Value.everyMapping_leaf h.isLeaf, h.isCanonical⟩

theorem IsResolved.tagged (name : String) (h : IsResolved value) : IsResolved (.tagged name value) :=
  ⟨Value.everyMapping_tagged.2 h.isProper, isCanonical_of_not_float (by simp)⟩

theorem IsResolved.keepTag (tag : Option String) (h : IsResolved value) : IsResolved (keepTag tag value) := by
  unfold Yaml.keepTag
  split
  · split
    · exact h.tagged _
    · exact h
  · exact h

theorem isResolved_of_resolveScalar {isPlain : Bool} {text : String}
    (h : resolveScalar tag isPlain text = .ok value) : IsResolved value := by
  rcases resolveScalar_cases h with hscalar | ⟨name, inner, rfl, hscalar⟩
  · exact hscalar.isResolved
  · exact hscalar.isResolved.tagged name

/-- What is read of items is read of one of them. -/
theorem isResolved_of_resolveItems {items : List Node} {values : List Value}
    (hresolve : ∀ node value, resolve node = .ok value → IsResolved value)
    (h : resolveItems resolve items = .ok values) : ∀ value ∈ values, IsResolved value := by
  induction items generalizing values with
  | nil =>
    cases h
    exact List.forall_mem_nil _
  | cons item rest ih =>
    rw [resolveItems] at h
    cases hfirst : resolve item with
    | error message => rw [hfirst] at h; cases h
    | ok first =>
      cases hothers : resolveItems resolve rest with
      | error message => rw [hfirst, hothers] at h; cases h
      | ok others =>
        rw [hfirst, hothers] at h
        cases h
        exact List.forall_mem_cons.2 ⟨hresolve item first hfirst, ih hothers⟩

/-- A key is read only if none of those before is the same. So with those read already, all of them differ. -/
theorem resolveEntries_distinct {nodes : List (Node × Node)} {done entries : List (Value × Value)}
    (hresolve : ∀ node value, resolve node = .ok value → IsResolved value)
    (hdone : Value.HasDistinctKeys done.reverse) (hvalues : ∀ entry ∈ done, IsResolved entry.2)
    (h : resolveEntries resolve done nodes = .ok entries) :
    Value.HasDistinctKeys entries ∧ ∀ entry ∈ entries, IsResolved entry.2 := by
  induction nodes generalizing done with
  | nil =>
    cases h
    exact ⟨hdone, fun entry hentry => hvalues entry (List.mem_reverse.1 hentry)⟩
  | cons node rest ih =>
    obtain ⟨keyNode, valueNode⟩ := node
    rw [resolveEntries] at h
    cases hkey : resolve keyNode with
    | error message => rw [hkey] at h; cases h
    | ok key =>
      rw [hkey] at h
      change (if isKeyOf key done then _ else _) = _ at h
      split at h
      · cases h
      · next hnew =>
        cases hvalue : resolve valueNode with
        | error message => rw [hvalue] at h; cases h
        | ok value =>
          rw [hvalue] at h
          refine @ih ((key, value) :: done) ?_ ?_ h
          · have hdifferent : ∀ entry ∈ done, key.same entry.1 = false := by
              simpa [isKeyOf] using hnew
            rw [List.reverse_cons]
            refine ⟨List.pairwise_append.2 ⟨hdone.pairwise, List.pairwise_singleton _ _, ?_⟩, ?_⟩
            · intro earlier hearlier later hlater
              rw [List.mem_singleton.1 hlater]
              exact hdifferent earlier (List.mem_reverse.1 hearlier)
            · intro entry hentry
              rcases List.mem_append.1 hentry with hentry | hentry
              · exact hdone.isCanonical entry hentry
              · rw [List.mem_singleton.1 hentry]
                exact (hresolve keyNode key hkey).isCanonical
          · exact List.forall_mem_cons.2 ⟨hresolve valueNode value hvalue, hvalues⟩

theorem isResolved_sequence {items : List Node} (hresolve : ∀ node value, resolve node = .ok value → IsResolved value)
    (h : (do let values ← resolveItems resolve items; .ok (keepTag tag (.sequence values))) = Except.ok value) :
    IsResolved value := by
  cases hvalues : resolveItems resolve items with
  | error message => rw [hvalues] at h; cases h
  | ok values =>
    rw [hvalues] at h
    cases h
    exact IsResolved.keepTag tag ⟨Value.everyMapping_sequence.2 fun part hpart =>
      (isResolved_of_resolveItems hresolve hvalues part hpart).isProper, isCanonical_of_not_float (by simp)⟩

theorem isResolved_mapping {nodes : List (Node × Node)}
    (hresolve : ∀ node value, resolve node = .ok value → IsResolved value)
    (h : (do let values ← resolveEntries resolve [] nodes; .ok (keepTag tag (.mapping values))) = Except.ok value) :
    IsResolved value := by
  cases hentries : resolveEntries resolve [] nodes with
  | error message => rw [hentries] at h; cases h
  | ok entries =>
    rw [hentries] at h
    cases h
    obtain ⟨hkeys, hvalues⟩ := resolveEntries_distinct hresolve ⟨.nil, by simp⟩ (by simp) hentries
    exact IsResolved.keepTag tag ⟨Value.everyMapping_mapping.2 ⟨hkeys, fun entry hentry =>
      (hvalues entry hentry).isProper⟩, isCanonical_of_not_float (by simp)⟩

/-- What a node means, however deep it is. -/
theorem isResolved_of_resolveNode {targets : List (Nat × Node)} {depth : Nat} {node : Node}
    (h : resolveNode targets depth node = .ok value) : IsResolved value := by
  induction depth generalizing node value with
  | zero =>
    unfold resolveNode at h
    split at h
    · cases h
    · cases h
    · exact isResolved_of_resolveScalar h
    · cases h
    · next hdepth _ => cases hdepth
    · next hdepth _ => cases hdepth
  | succ depth ih =>
    unfold resolveNode at h
    split at h
    · cases h
    · cases h
    · exact isResolved_of_resolveScalar h
    · cases h
    · next hdepth _ =>
      cases hdepth
      exact isResolved_sequence (fun _ _ => ih) h
    · next hdepth _ =>
      cases hdepth
      exact isResolved_mapping (fun _ _ => ih) h

/-- What a text means has no key twice. -/
theorem isProper_of_valueOf {text : String} (h : valueOf text = .ok value) : value.IsProper := by
  rw [valueOf] at h
  cases hdocument : documentOf text with
  | error message => rw [hdocument] at h; cases h
  | ok document =>
    rw [hdocument] at h
    cases document with
    | none =>
      cases h
      exact Value.everyMapping_leaf rfl
    | some document => exact (isResolved_of_resolveNode h).isProper

end

/-! ## Texts for keys -/

namespace Value

/-- There are no texts for the keys of a value exactly when a key of some mapping, wherever it is, is null, a
collection or tagged. Otherwise every mapping keeps its entries, each value under the text of its own key and the
content of a tag in its place, exactly when no mapping has a text among its keys that is also the text of a flag
or of a number among them. -/
theorem withTextKeys_loses_nothing_iff {value : Value} (hproper : value.IsProper) :
    ((∃ key, value.withTextKeys = .error key) ↔
      ∃ entries, Within (.mapping entries) value ∧ ∃ entry ∈ entries, entry.1.IsUnwritable) ∧
    ∀ kept, value.withTextKeys = .ok kept → (kept = value.spelled ↔ value.EveryMapping IsUnambiguous) := by
  have hfails : (∃ key, value.withTextKeys = .error key) ↔ ¬ ∃ kept, value.withTextKeys = .ok kept := by
    cases value.withTextKeys <;> simp
  constructor
  · rw [hfails, exists_withTextKeys_iff]
    simp only [EveryMapping, IsWritable, not_forall, not_not, exists_prop]
  · intro kept hkept
    rw [← withTextKeys_eq_spelled_iff hproper ((exists_withTextKeys_iff value).1 ⟨kept, hkept⟩), hkept,
      Except.ok.injEq]

/-- Responses by status codes, with a tag, a flag and a float among the keys. -/
def statusCodes : Value :=
  .mapping [(.integer 200, .tagged "!ok" (.mapping [(.bool true, .sequence [.string "on"])])),
    (.string "default", .null), (.float ⟨false, 6755399441055744, -52⟩, .mapping [])]

theorem isProper_statusCodes : statusCodes.IsProper := by
  have hinner : HasDistinctKeys [(.bool true, .sequence [.string "on"])] :=
    ⟨List.pairwise_singleton _ _, by simp [IsCanonical]⟩
  have houter : ∀ code default other : Value, HasDistinctKeys
      [(.integer 200, code), (.string "default", default), (.float ⟨false, 6755399441055744, -52⟩, other)] := by
    have hfloat : (⟨false, 6755399441055744, -52⟩ : Binary64).IsCanonical := by decide
    exact fun code default other => ⟨by simp [same], by simpa [IsCanonical] using hfloat⟩
  have hempty : HasDistinctKeys [] := ⟨.nil, List.forall_mem_nil _⟩
  have hleaves : (string "on").IsProper ∧ null.IsProper := ⟨everyMapping_leaf rfl, everyMapping_leaf rfl⟩
  simpa [IsProper, statusCodes, everyMapping_mapping, everyMapping_tagged, everyMapping_sequence, hinner, houter,
    hempty] using hleaves

theorem statusCodes_lose_nothing :
    statusCodes.IsProper ∧ statusCodes.withTextKeys = .ok statusCodes.spelled ∧
      statusCodes.EveryMapping IsUnambiguous :=
  ⟨isProper_statusCodes, rfl, ((withTextKeys_loses_nothing_iff isProper_statusCodes).2 _ rfl).1 rfl⟩

/-- Two entries with one key, once as a number and once as a text. -/
def keyTwice : Value := .mapping [(.integer 1, .string "a"), (.string "1", .string "b")]

/-- Of two entries with one text the later one takes the place of the earlier one, although there is a text for
each key. -/
theorem keyTwice_loses_an_entry :
    valueOf "\x7b1: a, '1': b\x7d" = .ok keyTwice ∧ keyTwice.IsProper ∧
      (¬ ∃ entries, Within (.mapping entries) keyTwice ∧ ∃ entry ∈ entries, entry.1.IsUnwritable) ∧
      keyTwice.withTextKeys = .ok (.mapping [(.string "1", .string "b")]) ∧
      keyTwice.spelled = .mapping [(.string "1", .string "a"), (.string "1", .string "b")] := by
  have hread : valueOf "\x7b1: a, '1': b\x7d" = .ok keyTwice := by cbv
  have hkept : keyTwice.withTextKeys = .ok (.mapping [(.string "1", .string "b")]) := rfl
  have hwritable := (exists_withTextKeys_iff keyTwice).1 ⟨_, hkept⟩
  refine ⟨hread, isProper_of_valueOf hread, ?_, hkept, rfl⟩
  rintro ⟨entries, hentries, entry, hentry, hunwritable⟩
  exact hwritable entries hentries entry hentry hunwritable

end Value

end ApiContract.Yaml
