import ApiContract.Proofs.Preparation.Undiscriminated
import ApiContract.Proofs.Schema.Searching

/-! # Schemas without references

The document around a schema matters only to the references in it. A schema without any asks the same in
every document, is guarded alike in every document, and the search for cases ends where it ends.

* `Inline`: no references in a value.
* `Evaluation.passes_iff_of_inline`, `Faulty.of_inline`: verdict and guard, whatever the document.
* `isSome_searchCases_iff`: whether the search for cases finds any.
* `acceptsReference_iff`: a reference to such a schema. -/

set_option autoImplicit false

namespace ApiContract

/-- No references in a value. -/
def Inline (value : Json) : Prop := value.allReferences = []

theorem Inline.of_subset {value part : Json} (h : Inline value)
    (hpart : part.allReferences ⊆ value.allReferences) : Inline part := by
  have hnone : value.allReferences = [] := h
  rw [hnone] at hpart
  exact List.subset_nil.1 hpart

theorem Inline.reference? {value : Json} (h : Inline value) : value.reference? = none := by
  cases hreference : value.reference? with
  | none => rfl
  | some reference =>
    have hmem := Json.reference?_mem_allReferences hreference
    rw [h] at hmem
    cases hmem

theorem Inline.not_reference {keywords : Fields} (h : Inline (.object keywords)) (reference : String) :
    keywords.get? "$ref" ≠ some (.string reference) := by
  intro href
  have hmem := mem_allReferences_of_get? href
  rw [h] at hmem
  cases hmem

theorem inline_iff_refersOnly {value : Json} : Inline value ↔ RefersOnly (fun _ => False) value :=
  List.eq_nil_iff_forall_not_mem

/-! ## Verdict and guard -/

section

variable {root other schema inst : Json} {known pool given within : List String}

theorem Evaluation.passes_iff_of_inline (hroot : root.ordered = true) (h : Inline schema)
    (hschema : schema.ordered = true) (hinst : inst.ordered = true) :
    Passes root known pool schema inst ↔ Passes other given within schema inst := by
  have hneeds : ∀ reference, ¬ Needs root schema reference := by
    rintro reference ⟨first, hfirst, -⟩
    rw [h] at hfirst
    cases hfirst
  exact passes_iff_of_agree hroot pool within schema inst hschema hinst
    (fun reference hneeded => absurd hneeded (hneeds reference))
    (fun reference hneeded => absurd hneeded (hneeds reference))
    fun reference hneeded => absurd hneeded (hneeds reference)

/-- The case that a tag selects stands in the schema. -/
theorem allReferences_subset_of_selection {value : String} {branch : Part schema}
    (h : selection schema inst = .case value branch) :
    branch.value.allReferences ⊆ schema.allReferences := by
  unfold selection at h
  split at h
  · cases h
  · rename_i cases tag hcases
    split at h
    · cases h
    · split at h
      · rename_i part hpart
        cases h
        have htable : schema.get? casesKeyword = some cases.value := by
          unfold casesAndTag? at hcases
          split at hcases
          · cases hcases
          · rename_i held hheld
            split at hcases
            · obtain ⟨name, -, heq⟩ := Option.map_eq_some_iff.1 hcases
              cases heq
              exact Json.part?_eq_some.1 hheld
            · cases hcases
        have hbranch : cases.value.get? value = some part.value := Json.part?_eq_some.1 hpart
        exact List.Subset.trans (Json.allReferences_subset_of_get? hbranch)
          (Json.allReferences_subset_of_get? htable)
      · cases h

theorem Faulty.of_inline (h : Faulty root known pool schema inst) (hinline : Inline schema) :
    Faulty other given within schema inst := by
  have hpart : ∀ {whole sub}, Inline whole → Within whole sub → Inline sub :=
    fun hwhole hsub => hwhole.of_subset hsub.allReferences_subset
  induction h generalizing within with
  | reference href =>
    rw [hinline.reference?] at href
    cases href
  | unselected href hselection => exact .unselected href hselection
  | case href hcase _ ih =>
    exact .case href hcase (ih (hinline.of_subset (allReferences_subset_of_selection hcase)))
  | conjunct href hsub _ ih =>
    exact .conjunct href hsub (ih (hpart hinline (within_of_guardedConjuncts hsub)))
  | property href hmem hsub _ ih =>
    exact .property href hmem hsub (ih (hpart hinline (within_of_propertySchema? hsub)))
  | item href hitem hsub _ ih =>
    exact .item href hitem hsub (ih (hpart hinline (within_of_guardedItem? hsub)))

end

/-! ## The search for cases -/

theorem isSome_foldlM {α β : Type} {step : β → α → Option β} {items : List α}
    (h : ∀ start, ∀ item ∈ items, (step start item).isSome = true) (start : β) :
    (items.foldlM step start).isSome = true := by
  induction items generalizing start with
  | nil => rfl
  | cons item rest ih =>
    have hstep := h start item List.mem_cons_self
    obtain ⟨next, hnext⟩ := Option.isSome_iff_exists.1 hstep
    rw [List.foldlM_cons, hnext]
    exact ih (fun start item hitem => h start item (List.mem_cons_of_mem _ hitem)) next

section

variable {root value : Json}

/-- Without references the search ends without a result exactly if it comes to no cases. -/
theorem isSome_searchCases_iff (hinline : Inline value) (pool : List String) :
    (searchCases root pool value).isSome = true ↔
      ∀ part, Visible value part → part.get? casesKeyword = none := by
  constructor
  · intro h part hpart
    obtain ⟨left, hleft⟩ := Option.isSome_iff_exists.1 h
    exact ((settled_of_searchCases pool value left hleft).2 part hpart).1
  · intro h
    induction value using Json.partsInduction generalizing pool with
    | object fields ih =>
      have hcases : ¬ Fields.hasKey fields casesKeyword = true := by
        have hnone : Fields.get? casesKeyword fields = none := h _ (.self _)
        rw [Fields.hasKey, hnone]
        exact Bool.false_ne_true
      rw [searchCases, if_neg hcases, hinline.reference?]
      refine isSome_foldlM (fun start entry hentry => ?_) _
      obtain ⟨key, part⟩ := entry
      have hmem := mem_fieldParts_object.1 hentry
      split
      · rfl
      · rename_i hkey
        rw [Option.isSome_map]
        refine ih (key, part.value) hmem (hinline.of_subset (Json.allReferences_subset_of_mem hmem)) _
          fun inner hinner => ?_
        exact h inner (.field hinline.reference? hmem (Bool.not_eq_true _ ▸ hkey) hinner)
    | array items ih =>
      rw [searchCases]
      refine isSome_foldlM (fun start part hpart => ?_) _
      obtain ⟨given, hgiven, hmem⟩ := Json.mem_itemParts.1 hpart
      cases hgiven
      rw [Option.isSome_map]
      exact ih part.value hmem (hinline.of_subset (Json.allReferences_subset_of_item hmem)) _
        fun inner hinner => h inner (.item hmem hinner)
    | plain value hobject hitems =>
      cases value with
      | object fields => exact absurd rfl (hobject fields)
      | array items => exact absurd rfl (hitems items)
      | _ => rw [searchCases] <;> simp

end

/-! ## A reference to a schema without references -/

/-- A reference as a root schema, with the components of a document beside it. -/
def referenceRoot (document : Json) (reference : String) : Json :=
  CompiledSchema.rootOf (.object [("$ref", .string reference)]) (document.get? "components")

/-- Whether a value satisfies what a reference leads to, compiled on its own. -/
def acceptsReference (name : String) (document : Json) (reference : String) (inst : Json) : Bool :=
  CompiledSchema.accepts ⟨name, referenceRoot document reference,
    reachesDiscriminator (referenceRoot document reference)⟩ inst

/-- The search for cases comes to some. -/
def ShowsCases (value : Json) : Prop := ∃ part, Visible value part ∧ part.get? casesKeyword ≠ none

section

variable {document schema inst : Json} {reference : String} {rest : List String}

theorem exists_components (hsteps : pointerSteps? reference = some ("components" :: rest))
    (h : document.resolve? reference = some schema) :
    ∃ components, document.get? "components" = some components ∧
      components.follow? rest = some schema := by
  rw [Json.resolve?, hsteps, Option.bind_some, Json.follow?] at h
  obtain ⟨components, hcomponents, hrest⟩ := Option.bind_eq_some_iff.1 h
  cases document with
  | object fields => exact ⟨components, hcomponents, hrest⟩
  | array items => cases hcomponents
  | _ => cases hcomponents

theorem referenceRoot_eq {components : Json} (h : document.get? "components" = some components) :
    referenceRoot document reference =
      .object [("$ref", .string reference), ("components", components)] := by
  rw [referenceRoot, h]
  rfl

theorem resolve?_referenceRoot (hsteps : pointerSteps? reference = some ("components" :: rest))
    (h : document.resolve? reference = some schema) :
    (referenceRoot document reference).resolve? reference = some schema := by
  obtain ⟨components, hcomponents, hrest⟩ := exists_components hsteps h
  rw [referenceRoot_eq hcomponents, Json.resolve?, hsteps]
  exact hrest

theorem ordered_referenceRoot {components : Json} (h : document.get? "components" = some components)
    (hordered : document.ordered = true) : (referenceRoot document reference).ordered = true := by
  rw [referenceRoot_eq h, Json.ordered_object, List.forall_mem_cons, List.forall_mem_singleton]
  refine ⟨Fields.ordered_of_keys rfl (by decide : ["$ref", "components"].Pairwise (· < ·)), rfl, ?_⟩
  exact Json.ordered_of_get? hordered h

/-- The guard of a reference is needed exactly if there are cases in the schema that it leads to. -/
theorem reachesDiscriminator_referenceRoot
    (hsteps : pointerSteps? reference = some ("components" :: rest))
    (hschema : document.resolve? reference = some schema) (hinline : Inline schema) :
    reachesDiscriminator (referenceRoot document reference) = true ↔ ShowsCases schema := by
  obtain ⟨components, hcomponents, -⟩ := exists_components hsteps hschema
  have htarget := resolve?_referenceRoot hsteps hschema
  rw [referenceRoot_eq hcomponents] at htarget ⊢
  have hmem : reference ∈ (Json.object [("$ref", .string reference),
      ("components", components)]).references :=
    Json.mem_references.2 (mem_allReferences_of_get? (by rw [Fields.get?_cons, if_pos rfl]))
  generalize hroot : Json.object [("$ref", .string reference), ("components", components)] = root
    at hmem htarget ⊢
  have halone : withoutComponents root = .object [("$ref", .string reference)] := by
    rw [← hroot]
    rfl
  have hsearch : (searchCases root root.references (.object [("$ref", .string reference)])).isSome =
      (searchCases root (withoutReference reference root.references) schema).isSome := by
    have href : (Json.object [("$ref", .string reference)]).reference? = some reference := rfl
    have hcases : ¬ Fields.hasKey [("$ref", Json.string reference)] casesKeyword = true :=
      Bool.false_ne_true
    rw [searchCases, if_neg hcases, href]
    simp only [hmem, dite_true, htarget]
    cases searchCases root (withoutReference reference root.references) schema with
    | none => rfl
    | some left =>
      refine isSome_foldlM (fun start entry hentry => ?_) _
      obtain ⟨key, part⟩ := entry
      have hentry := List.mem_singleton.1 (mem_fieldParts_object.1 hentry)
      have hvalue : part.value = .string reference := (Prod.mk.inj hentry).2
      split
      · rfl
      · rw [hvalue, searchCases] <;> simp
  rw [reachesDiscriminator, halone, ← Option.not_isSome, hsearch, Bool.not_eq_true',
    ← Bool.not_eq_true, isSome_searchCases_iff hinline]
  simp only [ShowsCases, not_forall, exists_prop, ne_eq]

/-- What a reference to a schema without references accepts, whatever the document is around it. -/
theorem acceptsReference_iff (name : String) (hplain : IsPlainReference reference)
    (hsteps : pointerSteps? reference = some ("components" :: rest))
    (hschema : document.resolve? reference = some schema) (hinline : Inline schema)
    (hdocument : document.ordered = true) (hinst : inst.ordered = true) :
    acceptsReference name document reference inst = true ↔
      Evaluation.Accepts schema schema inst ∧ (ShowsCases schema → ¬ Faulty schema [] [] schema inst) := by
  obtain ⟨components, hcomponents, -⟩ := exists_components hsteps hschema
  have hroot : (referenceRoot document reference).ordered = true :=
    ordered_referenceRoot hcomponents hdocument
  have htarget := resolve?_referenceRoot hsteps hschema
  have hordered := Json.ordered_of_resolve? hdocument hschema
  rw [acceptsReference, CompiledSchema.accepts_iff,
    reachesDiscriminator_referenceRoot hsteps hschema hinline]
  rw [referenceRoot_eq hcomponents] at hroot htarget ⊢
  have href : Fields.get? "$ref" [("$ref", Json.string reference), ("components", components)] =
      some (.string reference) := by rw [Fields.get?_cons, if_pos rfl]
  have hmem := Json.mem_references.2 (mem_allReferences_of_get? href)
  refine and_congr ?_ (imp_congr_right fun _ => ?_)
  · rw [← Evaluation.Accepts, Evaluation.accepts_iff_passes, Evaluation.passes_reference href,
      imp_iff_right hmem, targetOf_of_resolve? hplain htarget]
    simp only [Except.ok.injEq, forall_eq']
    exact Evaluation.passes_iff_of_inline hroot hinline hordered hinst
  · have hown : (Json.object [("$ref", .string reference), ("components", components)]).reference? =
        some reference := rfl
    rw [not_faulty_reference hown, imp_iff_right hmem, htarget]
    simp only [Option.some.injEq, forall_eq']
    exact not_congr ⟨fun h => h.of_inline hinline, fun h => h.of_inline hinline⟩

end

end ApiContract
