import ApiContract.Proofs.Preparation.Renaming

/-! # References of prepared documents

Preparing a document adds no reference to it but to cases. What holds of all references of a document holds
of those of the document with its dialect normalized.

* `RefersOnly`, `RefersOnlyUnder`: all references of a value, or of the value of a key, have a property.
* `refersOnly_insert`, `refersOnly_erase`: the fields of an object.
* `refersOnly_normalizeDialect`: the walk over the dialect. -/

set_option autoImplicit false

namespace ApiContract

/-- All references of a value have a property. -/
def RefersOnly (p : String → Prop) (value : Json) : Prop := ∀ reference ∈ value.allReferences, p reference

/-- The value of a key, which may be a reference itself. -/
def RefersOnlyUnder (p : String → Prop) (key : String) (value : Json) : Prop :=
  (key = "$ref" → ∀ reference, value = .string reference → p reference) ∧ RefersOnly p value

section

variable {p : String → Prop} {fields : Fields} {key : String} {value : Json}

/-! ## Values -/

theorem refersOnly_object : RefersOnly p (.object fields) ↔
    ∀ field ∈ fields, RefersOnlyUnder p field.1 field.2 := by
  unfold RefersOnly RefersOnlyUnder
  rw [Json.allReferences]
  constructor
  · rintro h ⟨k, v⟩ hfield
    refine ⟨?_, fun r hr => h r (Json.mem_allReferencesOfFields.2 (.inr ⟨(k, v), hfield, hr⟩))⟩
    rintro rfl r rfl
    exact h r (Json.mem_allReferencesOfFields.2 (.inl hfield))
  · intro h r hr
    rcases Json.mem_allReferencesOfFields.1 hr with hown | ⟨field, hfield, hinner⟩
    · exact (h _ hown).1 rfl r rfl
    · exact (h field hfield).2 r hinner

theorem refersOnly_array {items : List Json} : RefersOnly p (.array items) ↔
    ∀ item ∈ items, RefersOnly p item := by
  unfold RefersOnly
  rw [Json.allReferences]
  constructor
  · exact fun h item hitem r hr => h r (Json.mem_allReferencesOfItems.2 ⟨item, hitem, hr⟩)
  · intro h r hr
    obtain ⟨item, hitem, hinner⟩ := Json.mem_allReferencesOfItems.1 hr
    exact h item hitem r hinner

theorem refersOnly_string (text : String) : RefersOnly p (.string text) := by
  intro r hr
  cases hr

theorem refersOnlyUnder_of_ne (h : key ≠ "$ref") (hvalue : RefersOnly p value) :
    RefersOnlyUnder p key value := ⟨fun heq => absurd heq h, hvalue⟩

theorem refersOnlyUnder_of_get? (h : RefersOnly p (.object fields))
    (hvalue : fields.get? key = some value) : RefersOnlyUnder p key value :=
  refersOnly_object.1 h (key, value) (Fields.mem_of_get? hvalue)

theorem refersOnly_of_get? (h : RefersOnly p (.object fields))
    (hvalue : fields.get? key = some value) : RefersOnly p value :=
  (refersOnlyUnder_of_get? h hvalue).2

theorem refersOnlyUnder_of_sameKind {other : Json} (hkind : SameKind value other)
    (h : RefersOnlyUnder p key value) (hother : RefersOnly p other) : RefersOnlyUnder p key other := by
  cases hkind with
  | refl => exact h
  | _ => exact ⟨(fun _ r hr => by cases hr), hother⟩

theorem refersOnly_insert (h : RefersOnly p (.object fields)) (hvalue : RefersOnlyUnder p key value) :
    RefersOnly p (.object (fields.insert key value)) := by
  refine refersOnly_object.2 fun field hfield => ?_
  rcases Fields.mem_insert hfield with rfl | hold
  · exact hvalue
  · exact refersOnly_object.1 h field hold

theorem refersOnly_erase (h : RefersOnly p (.object fields)) (key : String) :
    RefersOnly p (.object (fields.erase key)) :=
  refersOnly_object.2 fun field hfield => refersOnly_object.1 h field (List.mem_filter.1 hfield).1

theorem RefersOnly.reference {reference : String} (h : RefersOnly p value)
    (hreference : value.reference? = some reference) : p reference :=
  h reference (Json.reference?_mem_allReferences hreference)

theorem RefersOnly.resolved {document target : Json} {reference : String}
    (h : RefersOnly p document) (htarget : document.resolve? reference = some target) :
    RefersOnly p target :=
  fun r hr => h r (Json.allReferences_subset_of_resolve? htarget hr)

/-! ## The dialect -/

theorem refersOnly_allowNullType (h : RefersOnly p (.object fields)) :
    RefersOnly p (.object (Dialect.allowNullType fields)) := by
  unfold Dialect.allowNullType
  split
  · refine refersOnly_insert h (refersOnlyUnder_of_ne (by decide) (refersOnly_array.2 ?_))
    exact List.forall_mem_cons.2 ⟨refersOnly_string _, List.forall_mem_singleton.2 (refersOnly_string _)⟩
  · exact h

theorem refersOnly_allowNullValue (h : RefersOnly p (.object fields)) :
    RefersOnly p (.object (Dialect.allowNullValue fields)) := by
  unfold Dialect.allowNullValue
  split
  · rename_i values hvalues
    split
    · exact h
    · have hold := refersOnly_array.1 (refersOnly_of_get? h hvalues)
      refine refersOnly_insert h (refersOnlyUnder_of_ne (by decide) (refersOnly_array.2 ?_))
      refine List.forall_mem_append.2 ⟨hold, List.forall_mem_singleton.2 ?_⟩
      intro r hr
      cases hr
  · exact h

theorem refersOnly_normalizeBound {exclusive inclusive : String} (hexclusive : exclusive ≠ "$ref")
    (h : RefersOnly p (.object fields)) :
    RefersOnly p (.object (Dialect.normalizeBound exclusive inclusive fields)) := by
  have hrest := refersOnly_erase h exclusive
  unfold Dialect.normalizeBound
  split
  · simp only
    split
    · rename_i bound hbound
      have hinner := refersOnly_of_get? hrest hbound
      exact refersOnly_insert (refersOnly_erase hrest inclusive) (refersOnlyUnder_of_ne hexclusive hinner)
    · exact hrest
  · exact hrest
  · exact h

theorem refersOnly_normalizeKeywords (h : RefersOnly p (.object fields)) :
    RefersOnly p (.object (Dialect.normalizeKeywords fields)) := by
  refine refersOnly_normalizeBound (by decide) (refersOnly_normalizeBound (by decide) ?_)
  unfold Dialect.normalizeNullable
  split
  · exact refersOnly_allowNullValue (refersOnly_allowNullType (refersOnly_erase h _))
  · exact h

theorem refersOnly_normalizeDialect {value : Json} (h : RefersOnly p value) :
    RefersOnly p (normalizeDialect value) := by
  induction value using Json.partsInduction with
  | object fields ih =>
    rw [normalizeDialect, normalizeFields_eq_map]
    refine refersOnly_normalizeKeywords (refersOnly_object.2 (List.forall_mem_map.2 ?_))
    intro field hfield
    have hold := refersOnly_object.1 h field hfield
    unfold walkField
    split
    · exact hold
    · exact refersOnlyUnder_of_sameKind (isWalk_normalizeDialect.kind field.2) hold
        (ih field hfield hold.2)
  | array items ih =>
    rw [normalizeDialect, normalizeItems_eq_map]
    refine refersOnly_array.2 (List.forall_mem_map.2 fun item hitem => ?_)
    exact ih item hitem (refersOnly_array.1 h item hitem)
  | plain value hobject harray =>
    rw [normalizeDialect]
    · exact h
    · exact hobject
    · exact harray

end

end ApiContract
