import ApiContract.Json.Pointer

/-!
# Sizes of parts

A part of a value is smaller than the value. Functions that follow a value into the parts that a key
names end by these lemmas.
-/

namespace ApiContract

theorem Json.sizeOf_pos (value : Json) : 0 < sizeOf value := by
  cases value <;>
    simp only [null.sizeOf_spec, bool.sizeOf_spec, number.sizeOf_spec, string.sizeOf_spec,
      array.sizeOf_spec, object.sizeOf_spec] <;> omega

theorem Fields.sizeOf_get?_lt {key : String} {fields : Fields} {value : Json}
    (h : Fields.get? key fields = some value) : sizeOf value < sizeOf fields := by
  induction fields with
  | nil => simp [Fields.get?] at h
  | cons field rest ih =>
    obtain ⟨k, v⟩ := field
    by_cases hk : k == key
    · simp only [Fields.get?, hk, if_true, Option.some.injEq] at h
      subst h
      simp
      omega
    · have := ih (by simpa [Fields.get?, hk] using h)
      simp
      omega

theorem Json.sizeOf_get?_lt {key : String} {value part : Json} (h : value.get? key = some part) :
    sizeOf part < sizeOf value := by
  cases value with
  | object fields =>
    have := Fields.sizeOf_get?_lt (h : Fields.get? key fields = some part)
    simp
    omega
  | _ => simp [Json.get?] at h

theorem Json.sizeOf_fields_lt {value : Json} {fields : Fields} (h : value.fields? = some fields) :
    sizeOf fields < sizeOf value := by
  cases value with
  | object given =>
    simp only [Json.fields?, Option.some.injEq] at h
    subst h
    simp
  | _ => simp [Json.fields?] at h

namespace Json

theorem sizeOf_item_lt {items : List Json} {item : Json} (h : item ∈ items) :
    sizeOf item < sizeOf (array items) := by
  have hitem := List.sizeOf_lt_of_mem h
  rw [array.sizeOf_spec]
  omega

theorem sizeOf_member_lt {fields : Fields} {name : String} {value : Json}
    (h : (name, value) ∈ fields) : sizeOf value < sizeOf (object fields) := by
  have hfield := List.sizeOf_lt_of_mem h
  rw [Prod.mk.sizeOf_spec] at hfield
  rw [object.sizeOf_spec]
  omega

theorem sizeOf_name_lt {fields : Fields} {name : String} {value : Json}
    (h : (name, value) ∈ fields) : sizeOf (string name) < sizeOf (object fields) := by
  have hvalue := sizeOf_pos value
  have hfield := List.sizeOf_lt_of_mem h
  rw [Prod.mk.sizeOf_spec] at hfield
  rw [object.sizeOf_spec, string.sizeOf_spec]
  omega

end Json

end ApiContract
