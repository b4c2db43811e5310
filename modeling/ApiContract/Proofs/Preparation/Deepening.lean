import ApiContract.Proofs.Preparation.Reaching

/-! # Flattening, deeper

The walk is bounded by a depth. Where it ends at one depth, it ends at all that are greater, with the same
result; so parts that end, at whatever depth, make a whole that ends.

* `flattenNode?_mono`, `resolveFragment?_mono`: a walk that ends comes to the same with more depth.
* `Ends`, `Resolves`: walks that end at some depth.
* `Ends.object`, `Resolves.of_ends`: from the parts to the whole, and from a target to the reference. -/

set_option autoImplicit false

namespace ApiContract

open Relation

/-! ## More depth -/

theorem mapM_mono {α β : Type} {g f : α → Option β} {items : List α} {results : List β}
    (h : ∀ item ∈ items, ∀ result, g item = some result → f item = some result)
    (hresults : items.mapM g = some results) : items.mapM f = some results := by
  induction items generalizing results with
  | nil => exact hresults
  | cons item rest ih =>
    rw [List.forall_mem_cons] at h
    rw [List.mapM_cons] at hresults ⊢
    obtain ⟨result, hresult, hrest⟩ := Option.bind_eq_some_iff.1 hresults
    obtain ⟨others, hothers, heq⟩ := Option.bind_eq_some_iff.1 hrest
    rw [h.1 result hresult, ih h.2 hothers]
    exact heq

section

variable {document : Json} {depth more : Nat} {followed : List String} {node flat : Json} {fields : Fields}

theorem mergeFragments?_mono
    (h : ∀ fragment result, resolveFragment? document depth followed fragment = some result →
      resolveFragment? document more followed fragment = some result)
    {fragments : List Json} {target merged : Option Fields}
    (hmerged : fragments.foldlM (mergeFragment? document depth followed) target = some merged) :
    fragments.foldlM (mergeFragment? document more followed) target = some merged := by
  induction fragments generalizing target with
  | nil => exact hmerged
  | cons fragment rest ih =>
    rw [List.foldlM_cons] at hmerged ⊢
    obtain ⟨next, hnext, hrest⟩ := Option.bind_eq_some_iff.1 hmerged
    have hsame : mergeFragment? document more followed target fragment = some next := by
      cases target with
      | none => exact hnext
      | some held =>
        obtain ⟨resolved, hresolved, rfl⟩ := Option.map_eq_some_iff.1 hnext
        rw [mergeFragment?, h fragment resolved hresolved]
        rfl
    rw [hsame]
    exact ih hrest

theorem composedFields?_mono
    (h : ∀ fragment result, resolveFragment? document depth followed fragment = some result →
      resolveFragment? document more followed fragment = some result)
    {keywords : Fields} (hkeywords : composedFields? document depth followed fields = some keywords) :
    composedFields? document more followed fields = some keywords := by
  unfold composedFields? at hkeywords ⊢
  split at hkeywords
  · obtain ⟨merged, hmerged, rfl⟩ := Option.map_eq_some_iff.1 hkeywords
    rw [mergeFragments?_mono h hmerged]
    rfl
  · exact hkeywords

theorem flattenField?_mono
    (h : ∀ node flat, flattenNode? document depth followed node = some flat →
      flattenNode? document more followed node = some flat)
    {key : String} {value result : Json}
    (hresult : flattenField? document depth followed key value = some result) :
    flattenField? document more followed key value = some result := by
  unfold flattenField? at hresult ⊢
  split
  · rename_i hdata
    rwa [if_pos hdata] at hresult
  · rename_i hdata
    rw [if_neg hdata] at hresult
    exact h value result hresult

theorem mapValues?_mono {g f : String → Json → Option Json} {results : Fields}
    (h : ∀ key value result, g key value = some result → f key value = some result)
    (hresults : Fields.mapValues? g fields = some results) : Fields.mapValues? f fields = some results := by
  refine mapM_mono (fun field _ result hresult => ?_) hresults
  obtain ⟨value, hvalue, rfl⟩ := Option.map_eq_some_iff.1 hresult
  rw [h field.1 field.2 value hvalue]
  rfl

section

variable {reference : String}

theorem resolveFragment?_plain (hreference : node.reference? = none) :
    resolveFragment? document (depth + 1) followed node =
      (flattenNode? document depth followed node).map flatFragment? := by
  rw [resolveFragment?, hreference]

theorem resolveFragment?_followed (hreference : node.reference? = some reference)
    (hmem : reference ∈ followed) :
    resolveFragment? document (depth + 1) followed node = some none := by
  rw [resolveFragment?, hreference]
  exact if_pos hmem

theorem resolveFragment?_unresolved (hreference : node.reference? = some reference)
    (htarget : document.resolve? reference = none) :
    resolveFragment? document (depth + 1) followed node = some none := by
  rw [resolveFragment?, hreference]
  simp only [htarget, ite_self]

theorem resolveFragment?_target {target : Json} (hreference : node.reference? = some reference)
    (hmem : reference ∉ followed) (htarget : document.resolve? reference = some target) :
    resolveFragment? document (depth + 1) followed node =
      resolveFragment? document depth (reference :: followed) target := by
  rw [resolveFragment?, hreference]
  simp only [htarget, if_neg hmem]

end

/-- A walk that ends comes to the same with one more level of depth. -/
theorem flattening_succ (document : Json) (depth : Nat) :
    (∀ followed node flat, flattenNode? document depth followed node = some flat →
      flattenNode? document (depth + 1) followed node = some flat) ∧
    (∀ followed fragment result, resolveFragment? document depth followed fragment = some result →
      resolveFragment? document (depth + 1) followed fragment = some result) := by
  induction depth with
  | zero =>
    refine ⟨fun followed node flat h => ?_, fun followed fragment result h => ?_⟩
    · cases h
    · cases h
  | succ depth ih =>
    obtain ⟨ihnode, ihfragment⟩ := ih
    refine ⟨fun followed node flat h => ?_, fun followed fragment result h => ?_⟩
    · cases node with
      | object fields =>
        rw [flattenNode?_object, Option.bind_eq_some_iff] at h
        obtain ⟨keywords, hkeywords, h⟩ := h
        obtain ⟨results, hresults, rfl⟩ := Option.map_eq_some_iff.1 h
        rw [flattenNode?_object, composedFields?_mono (ihfragment followed) hkeywords, Option.bind_some,
          mapValues?_mono (fun _ _ _ => flattenField?_mono (ihnode followed)) hresults]
        rfl
      | array items =>
        rw [flattenNode?_array] at h
        obtain ⟨results, hresults, rfl⟩ := Option.map_eq_some_iff.1 h
        rw [flattenNode?_array, mapM_mono (fun item _ => ihnode followed item) hresults]
        rfl
      | _ => exact h
    · cases hreference : fragment.reference? with
      | none =>
        rw [resolveFragment?_plain hreference] at h ⊢
        obtain ⟨flat, hflat, rfl⟩ := Option.map_eq_some_iff.1 h
        rw [ihnode followed fragment flat hflat]
        rfl
      | some reference =>
        by_cases hmem : reference ∈ followed
        · rwa [resolveFragment?_followed hreference hmem] at h ⊢
        · cases htarget : document.resolve? reference with
          | none => rwa [resolveFragment?_unresolved hreference htarget] at h ⊢
          | some target =>
            rw [resolveFragment?_target hreference hmem htarget] at h ⊢
            exact ihfragment _ _ _ h

theorem flattenNode?_mono (hle : depth ≤ more) (h : flattenNode? document depth followed node = some flat) :
    flattenNode? document more followed node = some flat := by
  induction hle with
  | refl => exact h
  | step _ ih => exact (flattening_succ document _).1 followed node flat ih

theorem resolveFragment?_mono {result : Option Fields} (hle : depth ≤ more)
    (h : resolveFragment? document depth followed node = some result) :
    resolveFragment? document more followed node = some result := by
  induction hle with
  | refl => exact h
  | step _ ih => exact (flattening_succ document _).2 followed node result ih

/-- A composition is merged to the same at all depths where it is merged. -/
theorem composedFields?_unique {keywords others : Fields}
    (h : composedFields? document depth followed fields = some keywords)
    (h' : composedFields? document more followed fields = some others) : keywords = others := by
  have hone := composedFields?_mono (fun _ _ => resolveFragment?_mono (Nat.le_max_left depth more)) h
  have hother := composedFields?_mono (fun _ _ => resolveFragment?_mono (Nat.le_max_right depth more)) h'
  exact Option.some.inj (hone.symm.trans hother)

end

/-! ## Walks that end -/

/-- A node is flattened at some depth, whatever led to it. -/
def Ends (document node : Json) : Prop :=
  ∀ followed, ∃ depth flat, flattenNode? document depth followed node = some flat

/-- A fragment comes to its keywords at some depth, whatever led to it. -/
def Resolves (document fragment : Json) : Prop :=
  ∀ followed, ∃ depth result, resolveFragment? document depth followed fragment = some result

theorem exists_mapM {α β : Type} {f : Nat → α → Option β}
    (hmono : ∀ {depth more item result}, depth ≤ more → f depth item = some result → f more item = some result)
    {items : List α} (h : ∀ item ∈ items, ∃ depth result, f depth item = some result) :
    ∃ depth results, items.mapM (f depth) = some results := by
  induction items with
  | nil => exact ⟨0, [], rfl⟩
  | cons item rest ih =>
    rw [List.forall_mem_cons] at h
    obtain ⟨one, result, hresult⟩ := h.1
    obtain ⟨other, results, hresults⟩ := ih h.2
    refine ⟨max one other, result :: results, ?_⟩
    rw [List.mapM_cons, hmono (Nat.le_max_left one other) hresult,
      mapM_mono (fun _ _ _ => hmono (Nat.le_max_right one other)) hresults]
    rfl

section

variable {document : Json} {node : Json} {fields keywords : Fields}

theorem Ends.plain (hobject : ∀ fields, node ≠ .object fields) (hlist : ∀ items, node ≠ .array items) :
    Ends document node := by
  intro followed
  refine ⟨1, node, ?_⟩
  cases node with
  | object fields => exact absurd rfl (hobject fields)
  | array items => exact absurd rfl (hlist items)
  | _ => rfl

theorem Ends.array {items : List Json} (h : ∀ item ∈ items, Ends document item) :
    Ends document (.array items) := by
  intro followed
  obtain ⟨depth, flats, hflats⟩ := exists_mapM (f := fun depth => flattenNode? document depth followed)
    (fun hle hflat => flattenNode?_mono hle hflat) fun item hitem => h item hitem followed
  exact ⟨depth + 1, .array flats, by rw [flattenNode?_array, hflats]; rfl⟩

theorem exists_flattenFields (followed : List String)
    (h : ∀ field ∈ keywords, isDataKeyword field.1 = false → Ends document field.2) :
    ∃ depth results, Fields.mapValues? (flattenField? document depth followed) keywords = some results := by
  refine exists_mapM (fun hle hresult => ?_) fun field hfield => ?_
  · obtain ⟨value, hvalue, rfl⟩ := Option.map_eq_some_iff.1 hresult
    rw [flattenField?_mono (fun _ _ => flattenNode?_mono hle) hvalue]
    rfl
  · cases hdata : isDataKeyword field.1 with
    | true => exact ⟨0, field, by rw [flattenField?, if_pos hdata]; rfl⟩
    | false =>
      obtain ⟨depth, flat, hflat⟩ := h field hfield hdata followed
      exact ⟨depth, (field.1, flat), by rw [flattenField?, hdata]; simp [hflat]⟩

theorem exists_mergeFragments {fragments : List Json} (followed : List String) (target : Option Fields)
    (h : ∀ fragment ∈ fragments, Resolves document fragment) :
    ∃ depth merged, fragments.foldlM (mergeFragment? document depth followed) target = some merged := by
  induction fragments generalizing target with
  | nil => exact ⟨0, target, rfl⟩
  | cons fragment rest ih =>
    rw [List.forall_mem_cons] at h
    obtain ⟨one, next, hnext⟩ :
        ∃ depth next, mergeFragment? document depth followed target fragment = some next := by
      cases target with
      | none => exact ⟨0, none, rfl⟩
      | some held =>
        obtain ⟨depth, result, hresult⟩ := h.1 followed
        exact ⟨depth, result.bind (mergeFields held), by rw [mergeFragment?, hresult]; rfl⟩
    obtain ⟨other, merged, hmerged⟩ := ih next h.2
    have hfirst : [fragment].foldlM (mergeFragment? document one followed) target = some next := by
      rw [List.foldlM_cons, hnext]
      rfl
    have hone := mergeFragments?_mono (fun _ _ => resolveFragment?_mono (Nat.le_max_left one other)) hfirst
    have hother := mergeFragments?_mono (fun _ _ => resolveFragment?_mono (Nat.le_max_right one other)) hmerged
    refine ⟨max one other, merged, ?_⟩
    rw [← List.singleton_append, List.foldlM_append, hone]
    exact hother

/-- An object ends, if its fragments do and all that is in it when they have been merged. -/
theorem Ends.object
    (hfragments : ∀ fragments, fragments? (.object fields) = some fragments →
      ∀ fragment ∈ fragments, Resolves document fragment)
    (hkeywords : ∀ depth followed keywords, composedFields? document depth followed fields = some keywords →
      ∀ field ∈ keywords, isDataKeyword field.1 = false → Ends document field.2) :
    Ends document (.object fields) := by
  intro followed
  obtain ⟨one, keywords, hcomposed⟩ : ∃ depth keywords,
      composedFields? document depth followed fields = some keywords := by
    unfold composedFields?
    split
    · rename_i fragments hlist
      obtain ⟨depth, merged, hmerged⟩ := exists_mergeFragments followed (some (fields.erase "allOf"))
        (hfragments fragments (fragments?_of_get? hlist))
      exact ⟨depth, _, by rw [hmerged]; rfl⟩
    · exact ⟨0, fields, rfl⟩
  obtain ⟨other, results, hresults⟩ := exists_flattenFields followed (hkeywords one followed keywords hcomposed)
  refine ⟨max one other + 1, .object results, ?_⟩
  rw [flattenNode?_object,
    composedFields?_mono (fun _ _ => resolveFragment?_mono (Nat.le_max_left one other)) hcomposed,
    Option.bind_some, mapValues?_mono (fun _ _ _ => flattenField?_mono fun _ _ =>
      flattenNode?_mono (Nat.le_max_right one other)) hresults]
  rfl

/-- An object without fragments ends, if its members do. -/
theorem Ends.members (hordered : (Json.object fields).ordered = true)
    (hfragments : fragments? (.object fields) = none)
    (h : ∀ name value, fields.get? name = some value → isDataKeyword name = false → Ends document value) :
    Ends document (.object fields) := by
  refine .object (fun fragments hsome => ?_) fun depth followed keywords hcomposed field hfield hdata => ?_
  · rw [hfragments] at hsome
    cases hsome
  · rw [composedFields?_of_fragments?_eq_none hfragments] at hcomposed
    cases hcomposed
    exact h field.1 field.2 (Fields.get?_of_mem (Json.ordered_object.1 hordered).1 hfield) hdata

/-- An object does not end, if a part of it does not. -/
theorem flattenNode?_eq_none {value : Json} {depth : Nat} {followed : List String} {key : String}
    (hkeywords : composedFields? document depth followed fields = some keywords)
    (hget : keywords.get? key = some value) (hdata : isDataKeyword key = false)
    (h : flattenNode? document depth followed value = none) :
    flattenNode? document (depth + 1) followed (.object fields) = none := by
  have hfield : flattenField? document depth followed key value = none := by
    rw [flattenField?, hdata]
    exact h
  rw [flattenNode?_object, hkeywords, Option.bind_some]
  cases hresults : Fields.mapValues? (flattenField? document depth followed) keywords with
  | none => rfl
  | some results =>
    obtain ⟨result, hresult, -⟩ := Fields.exists_of_mapValues? hresults hget
    cases hfield.symm.trans hresult

/-- A chain of references in a document comes to an end, since none is followed twice. -/
theorem exists_resolveFragment {node : Json} {known pool followed : List String}
    (hpool : Unfollowed known followed pool) (hknown : document.allReferences ⊆ known)
    (hreferences : node.allReferences ⊆ known)
    (h : ∀ other, ReflTransGen (Follows document) node other → Ends document other) :
    ∃ depth result, resolveFragment? document depth followed node = some result := by
  cases hreference : node.reference? with
  | none =>
    obtain ⟨depth, flat, hflat⟩ := h node .refl followed
    exact ⟨depth + 1, flatFragment? flat, by rw [resolveFragment?_plain hreference, hflat]; rfl⟩
  | some reference =>
    by_cases hmem : reference ∈ followed
    · exact ⟨1, none, resolveFragment?_followed hreference hmem⟩
    · cases htarget : document.resolve? reference with
      | none => exact ⟨1, none, resolveFragment?_unresolved hreference htarget⟩
      | some target =>
        have hleft : reference ∈ pool := by
          by_contra hnot
          exact hmem (hpool.mem_followed (hreferences (Json.reference?_mem_allReferences hreference)) hnot)
        have hshorter := length_withoutReference_lt hleft
        have htargetKnown : target.allReferences ⊆ known :=
          fun _ hother => hknown (Json.allReferences_subset_of_resolve? htarget hother)
        obtain ⟨depth, result, hresult⟩ := exists_resolveFragment (hpool.follow reference) hknown htargetKnown
          fun other hother => h other (.head ⟨reference, hreference, htarget⟩ hother)
        exact ⟨depth + 1, result, by rw [resolveFragment?_target hreference hmem htarget, hresult]⟩
termination_by pool.length

/-- A fragment ends, if it does where it is none, and else all that its reference leads to. -/
theorem Resolves.of_ends (hnode : node.reference? = none → Ends document node)
    (htarget : ∀ other, TransGen (Follows document) node other → Ends document other) :
    Resolves document node := by
  intro followed
  cases hreference : node.reference? with
  | none =>
    obtain ⟨depth, flat, hflat⟩ := hnode hreference followed
    exact ⟨depth + 1, flatFragment? flat, by rw [resolveFragment?_plain hreference, hflat]; rfl⟩
  | some reference =>
    by_cases hmem : reference ∈ followed
    · exact ⟨1, none, resolveFragment?_followed hreference hmem⟩
    · cases hresolve : document.resolve? reference with
      | none => exact ⟨1, none, resolveFragment?_unresolved hreference hresolve⟩
      | some target =>
        have hpool : Unfollowed document.allReferences (reference :: followed)
            (document.allReferences.filter fun other => other ∉ reference :: followed) := by
          intro other hother
          simp [hother]
        obtain ⟨depth, result, hresult⟩ := exists_resolveFragment hpool (List.Subset.refl _)
          (fun _ hother => Json.allReferences_subset_of_resolve? hresolve hother)
          fun other hother => htarget other (.head' ⟨reference, hreference, hresolve⟩ hother)
        exact ⟨depth + 1, result, by rw [resolveFragment?_target hreference hmem hresolve, hresult]⟩

end

end ApiContract
