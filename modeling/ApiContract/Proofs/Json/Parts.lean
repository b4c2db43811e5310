import ApiContract.Json.Part
import ApiContract.Json.References
import ApiContract.Proofs.Json.Fields

/-! # Parts as members

A part is known by its value alone, so the lists of parts of a value are read as its items and its
fields. The references of a value are those of its parts together.

* `Json.mem_itemParts`, `Json.mem_fieldParts`, `Json.part?_eq_some`: which parts there are.
* `Json.SameForm`: values that differ in their parts only.
* `mem_numbered`: numbered items by their place.
* `Json.allReferences_subset_of_get?` and its kin: a part brings no reference of its own.
* `Unfollowed`: a pool of references as those that are not on a list.
* `Json.partsInduction`: induction over objects, lists and plain values. -/

set_option autoImplicit false

namespace ApiContract

/-! ## Parts -/

@[ext] theorem Part.ext {whole : Json} {a b : Part whole} (h : a.value = b.value) : a = b := by
  cases a
  cases b
  cases h
  rfl

@[simp] theorem Part.inner_value {whole : Json} (outer : Part whole) (part : Part outer.value) :
    (outer.inner part).value = part.value := rfl

/-! ## Objects -/

theorem exists_object_of_isObject {value : Json} (h : value.isObject = true) :
    ∃ fields, value = .object fields := by
  cases value with
  | object fields => exact ⟨fields, rfl⟩
  | _ => cases h

theorem get?_of_not_object {value : Json} (h : value.isObject = false) (key : String) :
    value.get? key = none := by
  cases value with
  | object fields => cases h
  | _ => rfl

theorem get?_of_reference? {keywords : Fields} {reference : String}
    (h : (Json.object keywords).reference? = some reference) :
    Fields.get? "$ref" keywords = some (.string reference) := by
  obtain ⟨value, hvalue, hstring⟩ := Option.bind_eq_some_iff.1 h
  cases value with
  | string text =>
    cases hstring
    exact hvalue
  | _ => cases hstring

namespace Json

variable {whole : Json} {key : String} {part : Part whole}

theorem mem_itemParts : part ∈ whole.itemParts ↔ ∃ items, whole = .array items ∧ part.value ∈ items := by
  cases whole with
  | array items =>
    simp only [itemParts, List.mem_map, List.mem_attach, true_and, Subtype.exists]
    constructor
    · rintro ⟨item, hitem, rfl⟩
      exact ⟨items, rfl, hitem⟩
    · rintro ⟨given, hgiven, hpart⟩
      cases hgiven
      exact ⟨part.value, hpart, rfl⟩
  | _ => simp [itemParts]

theorem map_value_itemParts (items : List Json) :
    (itemParts (.array items)).map Part.value = items := by
  simp [itemParts, List.map_map, Function.comp_def]

theorem mem_fieldParts :
    (key, part) ∈ whole.fieldParts ↔ ∃ fields, whole = .object fields ∧ (key, part.value) ∈ fields := by
  cases whole with
  | object fields =>
    simp only [fieldParts, List.mem_map, List.mem_attach, true_and, Subtype.exists, Prod.mk.injEq]
    constructor
    · rintro ⟨field, hfield, rfl, rfl⟩
      exact ⟨fields, rfl, hfield⟩
    · rintro ⟨given, hgiven, hpart⟩
      cases hgiven
      exact ⟨(key, part.value), hpart, rfl, rfl⟩
  | _ => simp [fieldParts]

theorem mem_nameParts : part ∈ whole.nameParts ↔
    ∃ fields field, whole = .object fields ∧ field ∈ fields ∧ part.value = .string field.1 := by
  cases whole with
  | object fields =>
    simp only [nameParts, List.mem_map, List.mem_attach, true_and, Subtype.exists]
    constructor
    · rintro ⟨field, hfield, rfl⟩
      exact ⟨fields, field, rfl, hfield, rfl⟩
    · rintro ⟨given, field, hgiven, hfield, hpart⟩
      cases hgiven
      exact ⟨field, hfield, Part.ext hpart.symm⟩
  | _ => simp [nameParts]

theorem part?_eq_some : whole.part? key = some part ↔ whole.get? key = some part.value := by
  unfold part?
  split
  · rename_i value hvalue
    constructor
    · intro h
      cases h
      exact hvalue
    · intro h
      rw [hvalue, Option.some.injEq] at h
      exact congrArg some (Part.ext h)
  · rename_i hnone
    simp [hnone]

theorem part?_eq_none : whole.part? key = none ↔ whole.get? key = none := by
  unfold part?
  split
  · rename_i value hvalue
    simp [hvalue]
  · rename_i hnone
    simp [hnone]

end Json

theorem Part.mem_items {whole : Json} {outer : Part whole} {part : Part whole} :
    part ∈ outer.items ↔ ∃ items, outer.value = .array items ∧ part.value ∈ items := by
  simp only [Part.items, List.mem_map, Json.mem_itemParts]
  constructor
  · rintro ⟨inner, ⟨items, hitems, hmem⟩, rfl⟩
    exact ⟨items, hitems, hmem⟩
  · rintro ⟨items, hitems, hmem⟩
    have hsize : sizeOf part.value < sizeOf outer.value := hitems ▸ Json.sizeOf_item_lt hmem
    exact ⟨⟨part.value, hsize⟩, ⟨items, hitems, hmem⟩, rfl⟩

/-- What a change inside a value leaves of the value itself: objects with the same names in the same order,
lists of the same length, or one plain value. -/
inductive Json.SameForm : Json → Json → Prop where
  | object {fields given : Fields} (hkeys : given.map Prod.fst = fields.map Prod.fst) :
    SameForm (.object fields) (.object given)
  | array {items given : List Json} (hlength : given.length = items.length) :
    SameForm (.array items) (.array given)
  | plain {value : Json} (hobject : value.fields? = none) (hlist : value.items? = none) :
    SameForm value value

theorem mem_numbered {α : Type} {items : List α} {i : Nat} {item : α} :
    (i, item) ∈ numbered items ↔ items[i]? = some item := by
  constructor
  · intro h
    obtain ⟨n, hn⟩ := List.mem_iff_getElem?.1 h
    rw [numbered, List.getElem?_zip_eq_some] at hn
    obtain ⟨hi, hitem⟩ := hn
    obtain ⟨hlt, rfl⟩ := List.getElem?_eq_some_iff.1 hi
    simpa using hitem
  · intro h
    obtain ⟨hlt, -⟩ := List.getElem?_eq_some_iff.1 h
    refine List.mem_iff_getElem?.2 ⟨i, ?_⟩
    rw [numbered, List.getElem?_zip_eq_some]
    exact ⟨by simp [hlt], h⟩

/-! ## Induction -/

/-- What holds of a value if it holds of its items, or of the values of its fields, holds of all. -/
@[elab_as_elim] theorem Json.partsInduction {motive : Json → Prop}
    (object : ∀ fields, (∀ field ∈ fields, motive field.2) → motive (.object fields))
    (array : ∀ items, (∀ item ∈ items, motive item) → motive (.array items))
    (plain : ∀ value, (∀ fields, value ≠ .object fields) → (∀ items, value ≠ .array items) →
      motive value) (value : Json) : motive value := by
  match value with
  | .object fields =>
    refine object fields fun field hfield => ?_
    have hsmaller : sizeOf field.2 < sizeOf (Json.object fields) := Json.sizeOf_member_lt hfield
    exact Json.partsInduction object array plain field.2
  | .array items =>
    refine array items fun item hitem => ?_
    have hsmaller : sizeOf item < sizeOf (Json.array items) := Json.sizeOf_item_lt hitem
    exact Json.partsInduction object array plain item
  | .null => exact plain _ (fun _ => nofun) (fun _ => nofun)
  | .bool _ => exact plain _ (fun _ => nofun) (fun _ => nofun)
  | .number _ => exact plain _ (fun _ => nofun) (fun _ => nofun)
  | .string _ => exact plain _ (fun _ => nofun) (fun _ => nofun)
termination_by sizeOf value
decreasing_by
  · exact hsmaller
  · exact hsmaller

/-! ## Sizes -/

namespace Fields

theorem sizeOf_insert_lt {key : String} {value : Json} {fields : Fields}
    (h : get? key fields = none) : sizeOf fields < sizeOf (insert key value fields) := by
  have hvalue := Json.sizeOf_pos value
  induction fields with
  | nil =>
    simp only [insert, List.cons.sizeOf_spec, Prod.mk.sizeOf_spec]
    omega
  | cons field rest ih =>
    obtain ⟨k, v⟩ := field
    rw [get?_cons] at h
    by_cases hk : k = key
    · rw [if_pos hk] at h
      cases h
    · rw [if_neg hk] at h
      have hrest := ih h
      simp only [insert, beq_iff_eq, hk, if_false]
      split
      · simp only [List.cons.sizeOf_spec, Prod.mk.sizeOf_spec]
        omega
      · simp only [List.cons.sizeOf_spec, Prod.mk.sizeOf_spec]
        omega

theorem sizeOf_insert_le {key : String} {value old : Json} {fields : Fields}
    (h : get? key fields = some old) (hle : sizeOf old ≤ sizeOf value) :
    sizeOf fields ≤ sizeOf (insert key value fields) := by
  induction fields with
  | nil => cases h
  | cons field rest ih =>
    obtain ⟨k, v⟩ := field
    rw [get?_cons] at h
    by_cases hk : k = key
    · rw [if_pos hk, Option.some.injEq] at h
      subst h hk
      simp only [insert, beq_self_eq_true, if_true, List.cons.sizeOf_spec, Prod.mk.sizeOf_spec]
      omega
    · rw [if_neg hk] at h
      have hrest := ih h
      have hvalue := Json.sizeOf_pos value
      simp only [insert, beq_iff_eq, hk, if_false]
      split
      · simp only [List.cons.sizeOf_spec, Prod.mk.sizeOf_spec]
        omega
      · simp only [List.cons.sizeOf_spec, Prod.mk.sizeOf_spec]
        omega

end Fields

/-! ## References -/

namespace Json

theorem mem_allReferencesOfItems {reference : String} {items : List Json} :
    reference ∈ allReferencesOfItems items ↔ ∃ item ∈ items, reference ∈ item.allReferences := by
  induction items with
  | nil => simp [allReferencesOfItems]
  | cons item rest ih => simp [allReferencesOfItems, ih]

theorem mem_allReferencesOfFields {reference : String} {fields : Fields} :
    reference ∈ allReferencesOfFields fields ↔
      ("$ref", .string reference) ∈ fields ∨
        ∃ field ∈ fields, reference ∈ field.2.allReferences := by
  induction fields with
  | nil => simp [allReferencesOfFields]
  | cons field rest ih =>
    obtain ⟨key, value⟩ := field
    have hown : reference ∈ (if key = "$ref" then value.string?.toList else []) ↔
        ("$ref", .string reference) = (key, value) := by
      by_cases hkey : key = "$ref"
      · subst hkey
        cases value <;> simp [string?, eq_comm]
      · simp [hkey, Ne.symm hkey]
    rw [allReferencesOfFields, List.mem_append, List.mem_append, ih, hown]
    simp only [List.mem_cons, exists_eq_or_imp]
    exact or_or_or_comm

theorem mem_references {reference : String} {value : Json} :
    reference ∈ value.references ↔ reference ∈ value.allReferences := by
  rw [references, List.mem_eraseDups]

theorem allReferences_subset_of_mem {fields : Fields} {key : String} {value : Json}
    (h : (key, value) ∈ fields) : value.allReferences ⊆ (object fields).allReferences := by
  intro reference hr
  rw [allReferences]
  exact mem_allReferencesOfFields.2 (.inr ⟨(key, value), h, hr⟩)

theorem allReferences_subset_of_item {items : List Json} {value : Json} (h : value ∈ items) :
    value.allReferences ⊆ (array items).allReferences := by
  intro reference hr
  rw [allReferences]
  exact mem_allReferencesOfItems.2 ⟨value, h, hr⟩

theorem allReferences_subset_of_get? {key : String} {value part : Json}
    (h : value.get? key = some part) : part.allReferences ⊆ value.allReferences := by
  cases value with
  | object fields => exact allReferences_subset_of_mem (Fields.mem_of_get? h)
  | _ => simp [get?] at h

theorem allReferences_subset_of_child? {step : String} {value part : Json}
    (h : value.child? step = some part) : part.allReferences ⊆ value.allReferences := by
  cases value with
  | object fields => exact allReferences_subset_of_mem (Fields.mem_of_get? h)
  | array items =>
    obtain ⟨i, -, hi⟩ := Option.bind_eq_some_iff.1 h
    exact allReferences_subset_of_item (List.mem_of_getElem? hi)
  | _ => simp [child?] at h

theorem allReferences_subset_of_follow? {steps : List String} {value part : Json}
    (h : value.follow? steps = some part) : part.allReferences ⊆ value.allReferences := by
  induction steps generalizing value with
  | nil =>
    cases h
    exact fun _ => id
  | cons step rest ih =>
    obtain ⟨next, hnext, hrest⟩ := Option.bind_eq_some_iff.1 h
    exact fun _ hr => allReferences_subset_of_child? hnext (ih hrest hr)

theorem allReferences_subset_of_resolve? {reference : String} {document part : Json}
    (h : document.resolve? reference = some part) :
    part.allReferences ⊆ document.allReferences := by
  obtain ⟨steps, -, hsteps⟩ := Option.bind_eq_some_iff.1 h
  exact allReferences_subset_of_follow? hsteps

theorem reference?_mem_allReferences {reference : String} {value : Json}
    (h : value.reference? = some reference) : reference ∈ value.allReferences := by
  cases value with
  | object fields =>
    rw [allReferences]
    exact mem_allReferencesOfFields.2 (.inl (Fields.mem_of_get? (get?_of_reference? h)))
  | _ => cases h

/-! ## Order -/

theorem ordered_of_child? {step : String} {value part : Json} (ho : value.ordered = true)
    (h : value.child? step = some part) : part.ordered = true := by
  cases value with
  | object fields => exact ordered_of_get? ho h
  | array items =>
    obtain ⟨i, -, hi⟩ := Option.bind_eq_some_iff.1 h
    exact ordered_array.1 ho part (List.mem_of_getElem? hi)
  | _ => simp [child?] at h

theorem ordered_of_follow? {steps : List String} {value part : Json} (ho : value.ordered = true)
    (h : value.follow? steps = some part) : part.ordered = true := by
  induction steps generalizing value with
  | nil =>
    cases h
    exact ho
  | cons step rest ih =>
    obtain ⟨next, hnext, hrest⟩ := Option.bind_eq_some_iff.1 h
    exact ih (ordered_of_child? ho hnext) hrest

theorem ordered_of_resolve? {reference : String} {document part : Json}
    (ho : document.ordered = true) (h : document.resolve? reference = some part) :
    part.ordered = true := by
  obtain ⟨steps, -, hsteps⟩ := Option.bind_eq_some_iff.1 h
  exact ordered_of_follow? ho hsteps

end Json

/-! ## References that are left -/

/-- A pool holds those of some references that have not been followed. -/
def Unfollowed (known followed pool : List String) : Prop :=
  ∀ reference ∈ known, reference ∈ pool ↔ reference ∉ followed

theorem Unfollowed.refl (known : List String) : Unfollowed known [] known :=
  fun _ hmem => iff_of_true hmem List.not_mem_nil

theorem Unfollowed.mem_followed {known followed pool : List String} {reference : String}
    (h : Unfollowed known followed pool) (hknown : reference ∈ known) (hpool : reference ∉ pool) :
    reference ∈ followed :=
  Decidable.byContradiction fun hnot => hpool ((h reference hknown).2 hnot)

theorem Unfollowed.follow {known followed pool : List String} (h : Unfollowed known followed pool)
    (reference : String) : Unfollowed known (reference :: followed) (withoutReference reference pool) := by
  intro other hmem
  simp [withoutReference, h other hmem, and_comm]

end ApiContract
