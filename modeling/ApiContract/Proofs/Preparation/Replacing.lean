import ApiContract.Proofs.Preparation.Laxity

/-! # Flattened documents

In a flattened document a reference leads to a flattened schema. Where no reference leads into a
composition it leads to the same place as before, and a schema that is laxer in the document as it was is
laxer in the flattened document too.

* `ClearWay`, `ClearReferences`: ways that do not lead into compositions.
* `follow?_walked`: what stands at the end of such a way after the walk.
* `unrepeated_flattenCompositions`: no reference of the flattened document leads back to itself.
* `accepts_flattenCompositions`: what a schema accepts in a document it accepts in the flattened one.
* `findings_flattenCompositions`: flattening makes no schema stricter. -/

set_option autoImplicit false

namespace ApiContract

open Relation

/-! ## Ways through the document -/

/-- Steps that do not go into a composition, though they may lead to one. -/
def ClearWay : Json → List String → Prop
  | _, [] => True
  | value, step :: rest => (∀ fragments, value.get? "allOf" ≠ some (.array fragments)) ∧
    ∀ part, value.child? step = some part → ClearWay part rest

/-- No reference of a document leads into a composition. -/
def ClearReferences (document : Json) : Prop :=
  ∀ reference ∈ document.allReferences, ∀ steps, pointerSteps? reference = some steps →
    ClearWay document steps

section

variable {document : Json} {depth : Nat} {followed : List String} {value result : Json}

theorem WalkedFields.rel {fields results : Fields}
    (h : WalkedFields document depth followed fields results) (key : String) :
    Option.Rel (Walked document depth followed) (fields.get? key) (results.get? key) := by
  cases hresult : results.get? key with
  | none =>
    rw [(h.absent key).1 hresult]
    exact .none
  | some result =>
    obtain ⟨value, hvalue, hwalk⟩ := h.value hresult
    rw [hvalue]
    exact .some hwalk

theorem child?_walked (h : Walked document depth followed value result)
    (hall : ∀ fragments, value.get? "allOf" ≠ some (.array fragments)) (step : String) :
    Option.Rel (Walked document depth followed) (value.child? step) (result.child? step) := by
  cases value with
  | object fields =>
    obtain ⟨results, rfl, hfields⟩ := h.object hall
    exact hfields.rel step
  | array items =>
    obtain ⟨results, rfl, hitems⟩ := h.array
    unfold Json.child?
    cases indexOfStep? step with
    | none => exact .none
    | some i =>
      show Option.Rel _ items[i]? results[i]?
      cases hresult : results[i]? with
      | none =>
        rw [List.getElem?_eq_none_iff, ← hitems.length_eq] at hresult
        rw [List.getElem?_eq_none hresult]
        exact .none
      | some result =>
        obtain ⟨item, hitem, hwalk⟩ := exists_getElem?_of_forall₂ hitems hresult
        rw [hitem]
        exact .some hwalk
  | _ =>
    cases h.sameKind
    exact .none

/-- The walk leaves everything in its place, but for what it merges. -/
theorem follow?_walked {steps : List String} (h : Walked document depth followed value result)
    (hclear : ClearWay value steps) :
    Option.Rel (Walked document depth followed) (value.follow? steps) (result.follow? steps) := by
  induction steps generalizing value result with
  | nil => exact .some h
  | cons step rest ih =>
    have hchild := child?_walked h hclear.1 step
    rw [Json.follow?, Json.follow?]
    generalize hpart : value.child? step = part at hchild ⊢
    generalize result.child? step = flat at hchild ⊢
    cases hchild with
    | none => exact .none
    | some hwalk => exact ih hwalk (hclear.2 _ hpart)

end

/-! ## References of the flattened document -/

section

variable {document : Json}

theorem walked_flattenCompositions (document : Json) :
    Walked document (flattenDepth document) [] document (flattenCompositions document) := by
  unfold flattenCompositions
  cases h : flattenNode? document (flattenDepth document) [] document with
  | none => exact .kept document
  | some flat => exact .flattened (Nat.le_refl _) h

theorem allReferences_flattenCompositions (document : Json) :
    (flattenCompositions document).allReferences ⊆ document.allReferences :=
  refersOnly_flattenCompositions (p := (· ∈ document.allReferences)) fun _ => id

theorem resolve?_flattenCompositions (hclear : ClearReferences document) {reference : String}
    (hmem : reference ∈ document.allReferences) :
    Option.Rel (Walked document (flattenDepth document) []) (document.resolve? reference)
      ((flattenCompositions document).resolve? reference) := by
  unfold Json.resolve?
  cases hsteps : pointerSteps? reference with
  | none => exact .none
  | some steps =>
    exact follow?_walked (walked_flattenCompositions document) (hclear reference hmem steps hsteps)

/-- A reference leads to what the walk makes of its target. -/
theorem exists_target_of_flattened (hdocument : Followable document)
    (hclear : ClearReferences document) {reference : String} {flat : Json}
    (hmem : reference ∈ document.allReferences)
    (h : targetOf (flattenCompositions document) reference = .ok flat) :
    ∃ target, targetOf document reference = .ok target ∧
      Walked document (flattenDepth document) [] target flat := by
  have hrel := resolve?_flattenCompositions hclear hmem
  rw [targetOf_eq_ok_iff (hdocument.plain reference hmem)] at h
  rw [h] at hrel
  simp only [hdocument.target_iff hmem]
  generalize document.resolve? reference = found at hrel ⊢
  cases hrel with
  | some hwalk => exact ⟨_, rfl, hwalk⟩

theorem exists_flattened_of_target (hdocument : Followable document)
    (hclear : ClearReferences document) {reference : String} {target : Json}
    (hmem : reference ∈ document.allReferences) (h : targetOf document reference = .ok target) :
    ∃ flat, targetOf (flattenCompositions document) reference = .ok flat ∧
      Walked document (flattenDepth document) [] target flat := by
  have hrel := resolve?_flattenCompositions hclear hmem
  rw [hdocument.target_iff hmem] at h
  rw [h] at hrel
  simp only [targetOf_eq_ok_iff (hdocument.plain reference hmem)]
  generalize (flattenCompositions document).resolve? reference = found at hrel ⊢
  cases hrel with
  | some hwalk => exact ⟨_, rfl, hwalk⟩

/-- The walk brings no references along that the schema did not lead to. -/
theorem needs_walked (hdocument : Followable document) {depth : Nat} {followed : List String}
    {schema flat : Json} {reference : String} (hknown : schema.allReferences ⊆ document.allReferences)
    (hwalk : Walked document depth followed schema flat) (h : Needs document flat reference) :
    Needs document schema reference := by
  have hown : RefersOnly (Needs document schema) schema := fun next hnext => ⟨next, hnext, .refl⟩
  have hall : RefersOnly (Needs document schema) flat := by
    cases hwalk with
    | kept => exact hown
    | flattened _ hflat =>
      refine ((inherited_refersOnly _).flattening ?_ _).1 _ schema flat hown hflat
      intro fragment next target hfragment hreference htarget second hsecond
      obtain ⟨first, hfirst, hway⟩ := hfragment.reference hreference
      have hmem := Needs.mem hknown (hfragment.reference hreference)
      exact ⟨first, hfirst, hway.tail ⟨target, (hdocument.target_iff hmem).2 htarget, hsecond⟩⟩
  obtain ⟨first, hfirst, hway⟩ := h
  obtain ⟨origin, horigin, hbefore⟩ := hall first hfirst
  exact ⟨origin, horigin, hbefore.trans hway⟩

theorem mem_of_leadsOn_flattened {first second : String}
    (h : LeadsOn (flattenCompositions document) first second) : second ∈ document.allReferences := by
  obtain ⟨flat, hflat, hmem⟩ := h
  exact allReferences_flattenCompositions document (allReferences_subset_of_targetOf hflat hmem)

theorem transGen_of_leadsOn_flattened (hdocument : Followable document)
    (hclear : ClearReferences document) {first second : String} (hfirst : first ∈ document.allReferences)
    (h : LeadsOn (flattenCompositions document) first second) :
    TransGen (LeadsOn document) first second := by
  obtain ⟨flat, hflat, hmem⟩ := h
  obtain ⟨target, htarget, hwalk⟩ := exists_target_of_flattened hdocument hclear hfirst hflat
  have hneeds := needs_walked hdocument (allReferences_subset_of_targetOf htarget) hwalk
    ⟨second, hmem, .refl⟩
  exact hneeds.transGen htarget

/-- Flattening makes no cycles: what a reference leads on to it led to before. -/
theorem unrepeated_flattenCompositions (hdocument : Followable document)
    (hclear : ClearReferences document) : Unrepeated (flattenCompositions document) := by
  intro reference hcycle
  have hmem : reference ∈ document.allReferences := by
    obtain ⟨last, -, hlast⟩ := TransGen.tail'_iff.1 hcycle
    exact mem_of_leadsOn_flattened hlast
  have hway : ∀ {other}, TransGen (LeadsOn (flattenCompositions document)) reference other →
      TransGen (LeadsOn document) reference other := by
    intro other hway
    induction hway with
    | single hstep => exact transGen_of_leadsOn_flattened hdocument hclear hmem hstep
    | tail hbefore hstep ih =>
      obtain ⟨last, -, hlast⟩ := TransGen.tail'_iff.1 hbefore
      exact ih.trans (transGen_of_leadsOn_flattened hdocument hclear (mem_of_leadsOn_flattened hlast) hstep)
  exact hdocument.unrepeated reference (hway hcycle)

theorem ordered_flattenCompositions (h : document.ordered = true) :
    (flattenCompositions document).ordered = true := by
  have hwalk := walked_flattenCompositions document
  generalize flattenCompositions document = flat at hwalk ⊢
  cases hwalk with
  | kept => exact h
  | flattened _ hflat => exact ordered_of_flattenNode? h h hflat

end

/-! ## Schemas in the flattened document -/

section

variable {document schema inst : Json}

/-- Nothing changes for a schema that leads to no composition. -/
theorem accepts_iff_of_steady (hdocument : Followable document) (hclear : ClearReferences document)
    (hschema : schema.ordered = true) (hinst : inst.ordered = true) (hsteady : Steady document schema)
    (hknown : schema.allReferences ⊆ (flattenCompositions document).allReferences) :
    Evaluation.Accepts document schema inst ↔
      Evaluation.Accepts (flattenCompositions document) schema inst := by
  have hall := List.Subset.trans hknown (allReferences_flattenCompositions document)
  have hsame : ∀ reference, Needs document schema reference → ∀ target,
      targetOf (flattenCompositions document) reference = .ok target ↔
        targetOf document reference = .ok target := by
    intro reference hneeds target
    refine ⟨fun hflat => ?_, fun htarget => ?_⟩
    · obtain ⟨given, hgiven, hwalk⟩ := exists_target_of_flattened hdocument hclear (hneeds.mem hall) hflat
      rwa [hwalk.eq_of_uncomposed (hsteady reference hneeds given hgiven)]
    · obtain ⟨flat, hflat, hwalk⟩ := exists_flattened_of_target hdocument hclear (hneeds.mem hall) htarget
      rwa [hwalk.eq_of_uncomposed (hsteady reference hneeds target htarget)] at hflat
  exact Evaluation.accepts_iff_of_same_targets hdocument.ordered hschema hinst hall hknown hsame

theorem WalkedFields.refl {depth : Nat} {followed : List String} (fields : Fields) :
    WalkedFields document depth followed fields fields where
  absent _ := Iff.rfl
  origin _ value hvalue := ⟨value, hvalue, .kept value, fun _ => rfl⟩

theorem Walked.eq_of_no_depth {followed : List String} {value result : Json}
    (h : Walked document 0 followed value result) : result = value := by
  cases h with
  | kept => rfl
  | flattened hwithin h =>
    cases Nat.le_zero.1 hwithin
    cases h

/-- What a schema accepts in a document it accepts in the flattened document too. -/
theorem accepts_flattenCompositions (hdocument : Followable document)
    (hclear : ClearReferences document) (pool : List String) (schema inst : Json)
    (hschema : Mergeable document schema) (hinst : inst.ordered = true)
    (hknown : schema.allReferences ⊆ (flattenCompositions document).allReferences)
    (hpool : Covers document pool schema) (h : Evaluation.Accepts document schema inst) :
    Evaluation.Accepts (flattenCompositions document) schema inst := by
  cases schema with
  | object keywords =>
    cases href : (Json.object keywords).reference? with
    | some reference =>
      have hvalue := get?_of_reference? href
      have hmem := hpool.mem hvalue
      rw [Evaluation.accepts_reference (ordered_flattenCompositions hdocument.ordered)
        (unrepeated_flattenCompositions hdocument hclear) hinst hknown hvalue]
      intro flat hflat
      obtain ⟨target, htarget, hwalk⟩ := exists_target_of_flattened hdocument hclear
        (hschema.references.reference href).1 hflat
      have haccepts := (Evaluation.accepts_reference hdocument.ordered hdocument.unrepeated hinst
        hschema.known hvalue).1 h target htarget
      have hlax := laxer_of_walked (fun within _ => (laxer_flattening hdocument within).1 [])
        (hschema.followed hdocument href htarget) hwalk
      have hless := hpool.without hdocument.unrepeated hvalue htarget
      exact accepts_flattenCompositions hdocument hclear (withoutReference reference pool) flat inst
        hlax.mergeable hinst (allReferences_subset_of_targetOf hflat)
        (fun next hneeds => hless next
          (needs_walked hdocument (allReferences_subset_of_targetOf htarget) hwalk hneeds))
        (hlax.accepts inst hinst haccepts)
    | none =>
      have hseparate := hschema.separate
      have hparts : ∀ sub, LaxPart keywords sub → IsSeparable document sub :=
        fun sub hsub => (hschema.part hsub).separable
      have hbelow : ∀ {sub}, Beneath keywords sub →
          sub.allReferences ⊆ (flattenCompositions document).allReferences :=
        fun hsub => List.Subset.trans hsub.allReferences_subset hknown
      have hsame : WalkedFields document 0 [] keywords keywords := .refl keywords
      refine (Evaluation.accepts_keywords hschema.ordered hinst fun reference hvalue => ?unreferring).2
        (fulfils_walked hinst hschema.ordered hsame hseparate hparts (fun sub hsub => ?strict)
          (fun value result hpart hwalk => ?here)
          (fun value result hpart hwalk part ⟨hinner, hordered⟩ => ?inside)
          ((accepts_iff_fulfils hschema hinst href).1 h))
      case unreferring =>
        rw [hseparate.reference?_eq_none href] at hvalue
        cases hvalue
      case strict =>
        exact accepts_iff_of_steady hdocument hclear (hsub.beneath.ordered hschema.ordered) hinst
          (hseparate.strict sub hsub) (hbelow hsub.beneath)
      case here =>
        have hsmaller := hpart.beneath.sizeOf_lt
        rw [hwalk.eq_of_no_depth]
        exact accepts_flattenCompositions hdocument hclear pool value inst (hschema.part hpart) hinst
          (hbelow hpart.beneath) (hpool.beneath hpart.beneath)
      case inside =>
        rw [hwalk.eq_of_no_depth]
        exact accepts_flattenCompositions hdocument hclear document.references value part
          (hschema.part hpart) hordered (hbelow hpart.beneath)
          (covers_references (hschema.part hpart).known)
  | bool b =>
    cases b with
    | true => exact Evaluation.passes_true
    | false => exact absurd h Evaluation.not_passes_false
  | _ => cases hschema.separable
-- as for the verdict itself: smaller instances, then fewer references, then smaller schemas
termination_by (sizeOf inst, pool.length, sizeOf schema)
decreasing_by
  · subst_eqs
    exact Prod.Lex.right _ (Prod.Lex.right _ hsmaller)
  · exact Prod.Lex.left _ _ hinner
  · exact Prod.Lex.right _ (Prod.Lex.left _ _ (length_withoutReference_lt hmem))

end

/-! ## A composition with a reference -/

/-- A document that holds schemas by their names. -/
def componentsDocument (schemas : Fields) : Json :=
  .object [("components", .object [("schemas", .object schemas)])]

theorem clearWay_component {schemas : Fields} {name : String}
    (h : ∀ fragments, schemas.get? "allOf" ≠ some (.array fragments)) :
    ClearWay (componentsDocument schemas) ["components", "schemas", name] := by
  refine ⟨nofun, fun _ hcomponents => ?_⟩
  cases hcomponents
  refine ⟨nofun, fun _ hschemas => ?_⟩
  cases hschemas
  exact ⟨h, fun _ _ => trivial⟩

/-- Something with a name. -/
def namedSchema : Json := .object [("required", .array [.string "name"])]

def namedReference : Json := .object [("$ref", .string "#/components/schemas/Named")]

def anyObject : Json := .object [("type", .string "object")]

def petDocument : Json :=
  componentsDocument [("Named", namedSchema), ("Pet", composed namedReference anyObject)]

def mergedPet : Json := .object [("required", .array [.string "name"]), ("type", .string "object")]

def namedPet : Json := .object [("name", .string "Rex")]

theorem isPlainReference_named : IsPlainReference "#/components/schemas/Named" where
  isLocal := by decide
  plain := by decide
  valid := by decide

theorem mem_references_petDocument {reference : String} :
    reference ∈ petDocument.allReferences ↔ reference = "#/components/schemas/Named" :=
  List.mem_singleton

theorem targetOf_named : targetOf petDocument "#/components/schemas/Named" = .ok namedSchema :=
  targetOf_of_resolve? isPlainReference_named rfl

theorem followable_petDocument : Followable petDocument where
  ordered := by decide
  unrepeated := by
    refine unrepeated_of_last fun reference hmem target htarget => ?_
    obtain rfl := mem_references_petDocument.1 hmem
    cases targetOf_named.symm.trans htarget
    rfl
  plain reference hmem := mem_references_petDocument.1 hmem ▸ isPlainReference_named

theorem clearReferences_petDocument : ClearReferences petDocument := by
  intro reference hmem steps hsteps
  obtain rfl := mem_references_petDocument.1 hmem
  cases hsteps
  exact clearWay_component nofun

theorem separable_namedSchema (document : Json) : IsSeparable document namedSchema := by
  refine isSeparable_of_keys (List.forall_mem_singleton.2 (.inl ⟨by decide, .array ?_⟩))
  exact List.forall_mem_singleton.2 (.other rfl rfl)

theorem mergeable_namedReference : Mergeable petDocument namedReference where
  ordered := rfl
  references := by
    intro reference hmem
    obtain rfl := List.mem_singleton.1 hmem
    exact admissible_of_last (mem_references_petDocument.2 rfl) targetOf_named rfl
      (separable_namedSchema petDocument)
  separable := isSeparable_of_keys (List.forall_mem_singleton.2 (.inr (.inl ⟨rfl, _, rfl⟩)))

theorem mergeable_anyObject : Mergeable petDocument anyObject where
  ordered := rfl
  references := fun _ hmem => nomatch hmem
  separable := isSeparable_of_keys (List.forall_mem_singleton.2 (.inl ⟨by decide, .other rfl rfl⟩))

theorem accepts_namedPet :
    Evaluation.Accepts petDocument (composed namedReference anyObject) namedPet := by
  refine accepts_composed mergeable_namedReference mergeable_anyObject rfl ?_ ?_
  · refine (Evaluation.accepts_reference followable_petDocument.ordered followable_petDocument.unrepeated
      rfl mergeable_namedReference.known rfl).2 fun target htarget => ?_
    cases targetOf_named.symm.trans htarget
    refine accepts_of_assertion (by decide) rfl rfl fun name hname => ?_
    cases List.mem_singleton.1 hname
    rfl
  · exact accepts_of_assertion (by decide) rfl rfl ⟨.object, by decide, rfl⟩

end ApiContract
