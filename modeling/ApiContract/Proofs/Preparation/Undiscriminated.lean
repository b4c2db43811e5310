import ApiContract.Proofs.Preparation.Lasting
import ApiContract.Proofs.Schema.Following
import ApiContract.Proofs.Schema.Guarding

/-! # Schemas without discriminators

The introduction of cases and the guard are about discriminated schemas. A schema that holds none and leads
to none stays as it is, and the guard has nothing to say about it.

* `Undiscriminated`: no object in a value has the tag of a discriminator.
* `nodeWithCases_of_undiscriminated`: there is nothing to be replaced.
* `not_faulty_of_undiscriminated`: there is nothing to be guarded.
* `resolve?_nodeWithCases`: it is still found where it was. -/

set_option autoImplicit false

namespace ApiContract

/-! ## Parts that are schemas -/

/-- What stands in a value other than data, or is the schema of a property of any name there. -/
inductive Within : Json → Json → Prop where
  | self (value : Json) : Within value value
  | field {fields : Fields} {key : String} {value part : Json} (hmem : (key, value) ∈ fields)
    (hkey : isDataKeyword key = false) (h : Within value part) : Within (.object fields) part
  | property {fields properties : Fields} {name : String} {value part : Json}
    (hproperties : ("properties", .object properties) ∈ fields) (hmem : (name, value) ∈ properties)
    (h : Within value part) : Within (.object fields) part
  | item {items : List Json} {value part : Json} (hmem : value ∈ items) (h : Within value part) :
    Within (.array items) part

theorem Within.trans {value middle part : Json} (h : Within value middle) (hpart : Within middle part) :
    Within value part := by
  induction h with
  | self value => exact hpart
  | field hmem hkey _ ih => exact .field hmem hkey (ih hpart)
  | property hproperties hmem _ ih => exact .property hproperties hmem (ih hpart)
  | item hmem _ ih => exact .item hmem (ih hpart)

theorem Within.get? {value part : Json} {key : String} (h : value.get? key = some part)
    (hkey : isDataKeyword key = false) : Within value part := by
  cases value with
  | object fields => exact .field (Fields.mem_of_get? h) hkey (.self part)
  | _ => cases h

theorem Within.listed {value part : Json} (h : part ∈ listed value) : Within value part := by
  obtain ⟨items, rfl, hmem⟩ := mem_listed.1 h
  exact .item hmem (.self part)

theorem Within.allReferences_subset {value part : Json} (h : Within value part) :
    part.allReferences ⊆ value.allReferences := by
  induction h with
  | self value => exact fun _ => id
  | field hmem _ _ ih => exact fun _ hr => Json.allReferences_subset_of_mem hmem (ih hr)
  | property hproperties hmem _ ih =>
    exact fun _ hr => Json.allReferences_subset_of_mem hproperties
      (Json.allReferences_subset_of_mem hmem (ih hr))
  | item hmem _ ih => exact fun _ hr => Json.allReferences_subset_of_item hmem (ih hr)

/-- No object in a value is a schema with a discriminator. -/
def Undiscriminated (value : Json) : Prop :=
  ∀ fields, Within value (.object fields) → discriminatorTag? fields = none

theorem Undiscriminated.part {value part : Json} (h : Undiscriminated value) (hpart : Within value part) :
    Undiscriminated part :=
  fun fields hfields => h fields (hpart.trans hfields)

mutual

/-- Whether no object in a value, data included, has the tag of a discriminator. -/
def Json.isUntagged : Json → Bool
  | .object fields => (discriminatorTag? fields).isNone && areFieldsUntagged fields
  | .array items => areItemsUntagged items
  | _ => true

def areItemsUntagged : List Json → Bool
  | [] => true
  | item :: rest => Json.isUntagged item && areItemsUntagged rest

def areFieldsUntagged : Fields → Bool
  | [] => true
  | (_, value) :: rest => Json.isUntagged value && areFieldsUntagged rest

end

theorem areItemsUntagged_iff (items : List Json) :
    areItemsUntagged items = true ↔ ∀ item ∈ items, item.isUntagged = true := by
  induction items with
  | nil => simp [areItemsUntagged]
  | cons item rest ih => simp [areItemsUntagged, ih]

theorem areFieldsUntagged_iff (fields : Fields) :
    areFieldsUntagged fields = true ↔ ∀ field ∈ fields, field.2.isUntagged = true := by
  induction fields with
  | nil => simp [areFieldsUntagged]
  | cons field rest ih => simp [areFieldsUntagged, ih]

theorem isUntagged_of_mem {fields : Fields} {key : String} {value : Json}
    (h : (Json.object fields).isUntagged = true) (hmem : (key, value) ∈ fields) :
    value.isUntagged = true := by
  rw [Json.isUntagged, Bool.and_eq_true, areFieldsUntagged_iff] at h
  exact h.2 (key, value) hmem

theorem Within.isUntagged {value part : Json} (h : Within value part) (hvalue : value.isUntagged = true) :
    part.isUntagged = true := by
  induction h with
  | self value => exact hvalue
  | field hmem _ _ ih => exact ih (isUntagged_of_mem hvalue hmem)
  | property hproperties hmem _ ih =>
    exact ih (isUntagged_of_mem (isUntagged_of_mem hvalue hproperties) hmem)
  | item hmem _ ih =>
    rw [Json.isUntagged, areItemsUntagged_iff] at hvalue
    exact ih (hvalue _ hmem)

/-- A value can be checked for discriminators, if it has none in its data either. -/
theorem undiscriminated_of_isUntagged {value : Json} (h : value.isUntagged = true) :
    Undiscriminated value := by
  intro fields hfields
  have hpart := hfields.isUntagged h
  rw [Json.isUntagged, Bool.and_eq_true, Option.isNone_iff_eq_none] at hpart
  exact hpart.1

/-! ## Nothing to be replaced -/

section

variable {document value target : Json}

/-- Values without discriminators have no alternatives that become cases. -/
theorem nodeWithCases_of_undiscriminated (h : Undiscriminated value) :
    nodeWithCases document value = value := by
  induction value using Json.partsInduction with
  | object fields ih =>
    have hwalk : ∀ field ∈ fields,
        (field.1, walkField (nodeWithCases document) passesCases field.1 field.2) = field := by
      intro field hfield
      unfold walkField
      split
      · rfl
      · rename_i hpasses
        rw [Bool.not_eq_true, passesCases, Bool.or_eq_false_iff] at hpasses
        rw [ih field hfield (h.part (.field hfield hpasses.1 (.self field.2)))]
    rw [(isWalk_nodeWithCases document).object, List.map_congr_left hwalk, List.map_id',
      schemaWithCases_of_untagged (h fields (.self _))]
  | array items ih =>
    have hwalk : ∀ item ∈ items, nodeWithCases document item = item :=
      fun item hitem => ih item hitem (h.part (.item hitem (.self item)))
    rw [nodeWithCases, itemsWithCases_eq_map, List.map_congr_left hwalk, List.map_id']
  | plain value hobject hitems =>
    cases value with
    | object fields => exact absurd rfl (hobject fields)
    | array items => exact absurd rfl (hitems items)
    | _ => rfl

/-- A schema without discriminators is still found where it was, if the way there is not replaced. -/
theorem follow?_nodeWithCases {steps : List String} (h : Lasts KeptLast value steps)
    (htarget : value.follow? steps = some target) (hplain : Undiscriminated target) :
    (nodeWithCases document value).follow? steps = some target := by
  induction steps generalizing value with
  | nil =>
    cases htarget
    rw [nodeWithCases_of_undiscriminated hplain, Json.follow?]
  | cons step rest ih =>
    obtain ⟨hstep, part, hpart, hrest⟩ := h
    rw [Json.follow?, hpart, Option.bind_some] at htarget
    rw [Json.follow?]
    cases value with
    | object fields =>
      have hkept : KeptByCases (fields.map fun field =>
          (field.1, walkField (nodeWithCases document) passesCases field.1 field.2)) step := by
        intro hdiscriminator
        rw [Fields.hasKey, Fields.get?_map, Option.isSome_map] at hdiscriminator
        exact hstep fields rfl hdiscriminator
      have hget : Fields.get? step fields = some part := hpart
      rw [(isWalk_nodeWithCases document).object, Json.child?, get?_schemaWithCases_of_kept hkept,
        Fields.get?_map, hget, Option.map_some, Option.bind_some]
      unfold walkField
      split
      · exact htarget
      · exact ih hrest htarget
    | array items =>
      obtain ⟨i, hi, hitem⟩ := exists_item_of_child? hpart
      rw [nodeWithCases, itemsWithCases_eq_map, child?_array hi, List.getElem?_map, hitem,
        Option.map_some, Option.bind_some]
      exact ih hrest htarget
    | _ => cases hpart

end

/-! ## Nothing to be guarded -/

theorem selection_of_untagged {schema inst : Json}
    (h : (schema.get? "discriminator").bind (·.getString? "propertyName") = none) :
    selection schema inst = .nothing := by
  have hcases : casesAndTag? schema = none := by
    unfold casesAndTag?
    split
    · rfl
    · split
      · rw [h, Option.map_none]
      · rfl
  rw [selection, hcases]

theorem Undiscriminated.selection {schema : Json} (h : Undiscriminated schema) (inst : Json) :
    selection schema inst = .nothing := by
  refine selection_of_untagged ?_
  cases schema with
  | object fields => exact h fields (.self _)
  | _ => rfl

theorem within_of_guardedConjuncts {schema sub : Json} (h : sub ∈ guardedConjuncts schema) :
    Within schema sub := by
  have hmem := (List.mem_filter.1 h).1
  cases hall : schema.get? "allOf" with
  | none =>
    rw [hall] at hmem
    cases hmem
  | some value =>
    rw [hall] at hmem
    exact (Within.get? hall rfl).trans (.listed hmem)

theorem within_of_propertySchema? {schema sub : Json} {name : String} {steps : List String}
    (h : propertySchema? schema name = some (steps, sub)) : Within schema sub := by
  unfold propertySchema? at h
  split at h
  · rename_i given hgiven
    cases h
    obtain ⟨properties, hproperties, hname⟩ := Option.bind_eq_some_iff.1 hgiven
    cases schema with
    | object fields =>
      cases properties with
      | object properties =>
        exact .property (Fields.mem_of_get? hproperties) (Fields.mem_of_get? hname) (.self sub)
      | _ => cases hname
    | _ => cases hproperties
  · split at h
    · rename_i hextra
      cases h
      exact .get? hextra rfl
    · cases h

theorem within_of_guardedItem? {schema sub : Json} {place : Nat}
    (h : guardedItem? schema place = some sub) : Within schema sub := by
  unfold guardedItem? at h
  split at h
  · rename_i hitems
    cases h
    exact .get? hitems rfl
  · rename_i tuple hitems
    exact (Within.get? hitems rfl).trans (.item (List.mem_of_getElem? h) (.self sub))
  · cases h

theorem Needs.within {root schema sub : Json} {reference : String} (hsub : Within schema sub)
    (h : Needs root sub reference) : Needs root schema reference := by
  obtain ⟨first, hfirst, hway⟩ := h
  exact ⟨first, hsub.allReferences_subset hfirst, hway⟩

/-- All references that a schema leads to are found, by both ways of following them, and lead to schemas
without discriminators. -/
def LeadsToUndiscriminated (root schema : Json) : Prop :=
  ∀ reference, Needs root schema reference → ∃ target, targetOf root reference = .ok target ∧
    root.resolve? reference = some target ∧ Undiscriminated target

theorem LeadsToUndiscriminated.within {root schema sub : Json} (h : LeadsToUndiscriminated root schema)
    (hsub : Within schema sub) : LeadsToUndiscriminated root sub :=
  fun reference hneeds => h reference (hneeds.within hsub)

/-- The guard has nothing to report where there are no discriminators. -/
theorem not_faulty_of_undiscriminated {root schema inst : Json} {known pool : List String}
    (hschema : Undiscriminated schema) (hleads : LeadsToUndiscriminated root schema) :
    ¬ Faulty root known pool schema inst := by
  intro h
  induction h with
  | @reference pool schema target inst reference href _ htarget _ ih =>
    have hmem := Json.reference?_mem_allReferences href
    obtain ⟨given, hgiven, hsame, hplain⟩ := hleads reference ⟨reference, hmem, .refl⟩
    cases htarget.symm.trans hsame
    refine ih hplain fun next hneeds => hleads next ?_
    exact ⟨reference, hmem, (hneeds.transGen hgiven).to_reflTransGen⟩
  | unselected _ hselection =>
    rw [hschema.selection] at hselection
    cases hselection
  | case _ hcase =>
    rw [hschema.selection] at hcase
    cases hcase
  | conjunct _ hsub _ ih =>
    have hwithin := within_of_guardedConjuncts hsub
    exact ih (hschema.part hwithin) (hleads.within hwithin)
  | property _ _ hsub _ ih =>
    have hwithin := within_of_propertySchema? hsub
    exact ih (hschema.part hwithin) (hleads.within hwithin)
  | item _ _ hsub _ ih =>
    have hwithin := within_of_guardedItem? hsub
    exact ih (hschema.part hwithin) (hleads.within hwithin)

end ApiContract
