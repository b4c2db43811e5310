import ApiContract.Proofs.Preparation.OpenSchemas
import ApiContract.Proofs.Preparation.Renaming

/-! # Keywords written as JSON Schema does

The rewriting of the dialect key by key, for any fields and then for those of a schema in the dialect.

* `Dialect.get?_normalizeNullable`, `Dialect.get?_normalizeBound`: what each rewriting does to a key.
* `ordered_normalizeDialect`: values stay ordered.
* `Dialect.get?_normalized`: the keywords of a schema. -/

set_option autoImplicit false

namespace ApiContract

namespace Dialect

/-! ## The rewritings by key -/

/-- A type that admits null too. -/
def typeOrNull : Json → Json
  | .string name => .array [.string name, .string "null"]
  | other => other

/-- The values of an enumeration and null. -/
def valuesOrNull : Json → Json
  | .array values => if Json.isAmong .null values then .array values else .array (values ++ [.null])
  | other => other

/-- The value of a keyword where null is admitted. -/
def orNull (key : String) (value : Json) : Json :=
  if key = "type" then typeOrNull value else if key = "enum" then valuesOrNull value else value

section

variable {fields : Fields} {key : String}

theorem get?_allowNullType : (allowNullType fields).get? key =
    (fields.get? key).map fun value => if key = "type" then typeOrNull value else value := by
  unfold allowNullType
  split
  · rename_i name hname
    rw [Fields.get?_insert]
    by_cases hkey : "type" = key
    · subst hkey
      rw [hname, if_pos rfl]
      rfl
    · simp [hkey, Ne.symm hkey]
  · rename_i hother
    by_cases hkey : key = "type"
    · subst hkey
      cases hvalue : fields.get? "type" with
      | none => rfl
      | some value =>
        cases value with
        | string name => exact absurd hvalue (hother name)
        | _ => rfl
    · simp [hkey]

theorem get?_allowNullValue : (allowNullValue fields).get? key =
    (fields.get? key).map fun value => if key = "enum" then valuesOrNull value else value := by
  unfold allowNullValue
  split
  · rename_i values hvalues
    by_cases hkey : "enum" = key
    · subst hkey
      rw [hvalues]
      by_cases hnull : Json.isAmong .null values = true
      · simp [hnull, hvalues, valuesOrNull]
      · simp [hnull, valuesOrNull]
    · split
      · simp [Ne.symm hkey]
      · simp [hkey, Ne.symm hkey]
  · rename_i hother
    by_cases hkey : key = "enum"
    · subst hkey
      cases hvalue : fields.get? "enum" with
      | none => rfl
      | some value =>
        cases value with
        | array values => exact absurd hvalue (hother values)
        | _ => rfl
    · simp [hkey]

theorem get?_normalizeNullable (hkey : key ≠ "nullable") : (normalizeNullable fields).get? key =
    (fields.get? key).map fun value => if flagged fields "nullable" then orNull key value else value := by
  unfold normalizeNullable flagged
  split
  · rename_i hflag
    rw [get?_allowNullValue, get?_allowNullType, Fields.get?_erase, if_neg (Ne.symm hkey), hflag]
    unfold orNull
    cases fields.get? key with
    | none => rfl
    | some value =>
      by_cases htype : key = "type"
      · subst htype
        rfl
      · simp [htype]
  · rename_i hother
    cases hvalue : fields.get? "nullable" with
    | none => simp
    | some value =>
      cases value with
      | bool flag =>
        cases flag with
        | true => exact absurd hvalue hother
        | false => simp
      | _ => simp

theorem get?_normalizeBound {exclusive inclusive : String} (hne : exclusive ≠ inclusive)
    (hflag : ∀ value, fields.get? exclusive = some value → ∃ flag, value = .bool flag) :
    (normalizeBound exclusive inclusive fields).get? key =
      if key = exclusive then
        if flagged fields exclusive then fields.get? inclusive else none
      else if key = inclusive ∧ flagged fields exclusive = true then none
      else fields.get? key := by
  unfold normalizeBound flagged
  cases hvalue : fields.get? exclusive with
  | none =>
    by_cases hkey : key = exclusive
    · simp [hkey, hvalue]
    · simp [hkey]
  | some value =>
    obtain ⟨flag, rfl⟩ := hflag value hvalue
    cases flag with
    | false =>
      by_cases hkey : key = exclusive
      · simp [hkey]
      · simp [hkey, Ne.symm hkey]
    | true =>
      simp only [Fields.get?_erase, if_neg hne]
      cases hbound : fields.get? inclusive with
      | none =>
        by_cases hkey : key = exclusive
        · simp [hkey]
        · by_cases hin : key = inclusive
          · subst hin
            simp [hkey, hbound]
          · simp [hkey, Ne.symm hkey, hin]
      | some bound =>
        by_cases hkey : key = exclusive
        · simp [hkey]
        · by_cases hin : key = inclusive
          · subst hin
            simp [hkey, Ne.symm hkey]
          · simp [hkey, Ne.symm hkey, hin, Ne.symm hin]

/-! ## Order -/

theorem ordered_allowNullType (h : (Json.object fields).ordered = true) :
    (Json.object (allowNullType fields)).ordered = true := by
  unfold allowNullType
  split
  · exact ordered_insert h rfl
  · exact h

theorem ordered_allowNullValue (h : (Json.object fields).ordered = true) :
    (Json.object (allowNullValue fields)).ordered = true := by
  unfold allowNullValue
  split
  · rename_i values hvalues
    split
    · exact h
    · refine ordered_insert h ?_
      have henum := Json.ordered_array.1 (Json.ordered_of_get? h hvalues)
      rw [Json.ordered_array, List.forall_mem_append, List.forall_mem_singleton]
      exact ⟨henum, rfl⟩
  · exact h

theorem ordered_normalizeNullable (h : (Json.object fields).ordered = true) :
    (Json.object (normalizeNullable fields)).ordered = true := by
  unfold normalizeNullable
  split
  · exact ordered_allowNullValue (ordered_allowNullType (ordered_erase h _))
  · exact h

theorem ordered_normalizeBound {exclusive inclusive : String} (h : (Json.object fields).ordered = true) :
    (Json.object (normalizeBound exclusive inclusive fields)).ordered = true := by
  unfold normalizeBound
  split
  · have hrest := ordered_erase h exclusive
    simp only
    split
    · rename_i bound hbound
      exact ordered_insert (ordered_erase hrest inclusive) (Json.ordered_of_get? hrest hbound)
    · exact hrest
  · exact ordered_erase h _
  · exact h

theorem ordered_normalizeKeywords (h : (Json.object fields).ordered = true) :
    (Json.object (normalizeKeywords fields)).ordered = true :=
  ordered_normalizeBound (ordered_normalizeBound (ordered_normalizeNullable h))

end

theorem ordered_normalizeDialect {value : Json} (h : value.ordered = true) :
    (normalizeDialect value).ordered = true := by
  induction value using Json.partsInduction with
  | object fields ih =>
    rw [normalizeDialect, normalizeFields_eq_map]
    exact ordered_normalizeKeywords (ordered_walkFields h ih)
  | array items ih =>
    rw [normalizeDialect, normalizeItems_eq_map, Json.ordered_array, List.forall_mem_map]
    exact fun item hitem => ih item hitem (Json.ordered_array.1 h item hitem)
  | plain value hobject harray =>
    cases value with
    | object fields => exact absurd rfl (hobject fields)
    | array items => exact absurd rfl (harray items)
    | _ => exact h

/-! ## The keywords of one schema -/

/-- The keywords of a schema, normalized. -/
def normalized (keywords : Fields) : Fields := normalizeKeywords (normalizeFields keywords)

theorem normalizeDialect_object (keywords : Fields) :
    normalizeDialect (.object keywords) = .object (normalized keywords) := by
  rw [normalizeDialect, normalized]

theorem get?_normalizeFields (keywords : Fields) (key : String) :
    (normalizeFields keywords).get? key =
      (keywords.get? key).map (walkField normalizeDialect isDataKeyword key) := by
  rw [normalizeFields_eq_map, Fields.get?_map]

section

variable {allowed : String → Prop} {keywords : Fields} {key : String}

theorem walkField_of_plain {value : Json} (h : normalizeDialect value = value) :
    walkField normalizeDialect isDataKeyword key value = value := by
  rw [walkField, h, ite_self]

/-- Fields whose values are no schemas stay as they are. -/
theorem get?_normalizeFields_of_plain
    (h : ∀ value, keywords.get? key = some value → normalizeDialect value = value) :
    (normalizeFields keywords).get? key = keywords.get? key := by
  rw [get?_normalizeFields]
  cases hvalue : keywords.get? key with
  | none => rfl
  | some value => rw [Option.map_some, walkField_of_plain (h value hvalue)]

theorem flagged_of_get?_eq {fields : Fields} (h : fields.get? key = keywords.get? key) :
    flagged fields key = flagged keywords key := by
  rw [flagged, flagged, h]

variable (h : HasOpenShape allowed keywords)
include h

theorem HasOpenShape.flag (hkey : key ∈ flagKeywords) :
    (normalizeFields keywords).get? key = keywords.get? key := by
  refine get?_normalizeFields_of_plain fun value hvalue => ?_
  obtain ⟨flag, rfl⟩ := h.flags key hkey value hvalue
  rfl

theorem HasOpenShape.bound (hkey : key ∈ boundKeywords) :
    (normalizeFields keywords).get? key = keywords.get? key := by
  refine get?_normalizeFields_of_plain fun value hvalue => ?_
  obtain ⟨n, rfl⟩ := h.bounds key hkey value hvalue
  rfl

/-- By key: a type and an enumeration may admit null, a bound and its flag become one, and all other
keywords keep their place. -/
theorem get?_normalized : (normalized keywords).get? key =
    if key = "exclusiveMaximum" then
      if flagged keywords "exclusiveMaximum" then keywords.get? "maximum" else none
    else if key = "maximum" ∧ flagged keywords "exclusiveMaximum" = true then none
    else if key = "exclusiveMinimum" then
      if flagged keywords "exclusiveMinimum" then keywords.get? "minimum" else none
    else if key = "minimum" ∧ flagged keywords "exclusiveMinimum" = true then none
    else (normalizeNullable (normalizeFields keywords)).get? key := by
  have hnullable : ∀ key ∈ ["exclusiveMinimum", "exclusiveMaximum", "minimum", "maximum"],
      (normalizeNullable (normalizeFields keywords)).get? key = keywords.get? key := by
    intro key hkey
    have hplain : orNull key = id := by
      simp only [List.mem_cons, List.not_mem_nil, or_false] at hkey
      rcases hkey with rfl | rfl | rfl | rfl <;> rfl
    have hne : key ≠ "nullable" := by
      rintro rfl
      exact absurd hkey (by decide)
    have hgiven : (normalizeFields keywords).get? key = keywords.get? key := by
      simp only [List.mem_cons, List.not_mem_nil, or_false] at hkey
      rcases hkey with rfl | rfl | rfl | rfl
      · exact h.flag (by decide)
      · exact h.flag (by decide)
      · exact h.bound (by decide)
      · exact h.bound (by decide)
    rw [get?_normalizeNullable hne, hgiven, hplain]
    simp
  have hleast : ∀ key, (normalizeBound "exclusiveMinimum" "minimum"
      (normalizeNullable (normalizeFields keywords))).get? key =
        if key = "exclusiveMinimum" then
          if flagged keywords "exclusiveMinimum" then keywords.get? "minimum" else none
        else if key = "minimum" ∧ flagged keywords "exclusiveMinimum" = true then none
        else (normalizeNullable (normalizeFields keywords)).get? key := by
    intro key
    rw [get?_normalizeBound (by decide), flagged_of_get?_eq (hnullable _ (by decide)),
      hnullable "minimum" (by decide)]
    rw [hnullable _ (by decide)]
    exact h.flags _ (by decide)
  have hgreatest : (normalizeBound "exclusiveMinimum" "minimum"
      (normalizeNullable (normalizeFields keywords))).get? "exclusiveMaximum" =
        keywords.get? "exclusiveMaximum" := by
    rw [hleast, if_neg (by decide), if_neg (by simp), hnullable _ (by decide)]
  have hmaximum : (normalizeBound "exclusiveMinimum" "minimum"
      (normalizeNullable (normalizeFields keywords))).get? "maximum" = keywords.get? "maximum" := by
    rw [hleast, if_neg (by decide), if_neg (by simp), hnullable _ (by decide)]
  rw [normalized, normalizeKeywords, get?_normalizeBound (by decide), flagged_of_get?_eq hgreatest,
    hmaximum, hleast]
  rw [hgreatest]
  exact h.flags _ (by decide)

/-- The keywords that flags have nothing to do with. -/
theorem get?_normalized_of_ne (hkey : key ∉ flagKeywords ++ boundKeywords ++ ["type", "enum"]) :
    (normalized keywords).get? key =
      (keywords.get? key).map (walkField normalizeDialect isDataKeyword key) := by
  simp only [flagKeywords, boundKeywords, List.cons_append, List.nil_append, List.mem_cons,
    List.not_mem_nil, or_false, not_or] at hkey
  obtain ⟨hnullable, hleast, hgreatest, hminimum, hmaximum, htype, henum⟩ := hkey
  rw [get?_normalized h, if_neg hgreatest, if_neg fun hand => hmaximum hand.1, if_neg hleast,
    if_neg fun hand => hminimum hand.1, get?_normalizeNullable hnullable, get?_normalizeFields]
  have hplain : ∀ value, (if flagged (normalizeFields keywords) "nullable" then orNull key value
      else value) = value := by
    intro value
    rw [orNull, if_neg htype, if_neg henum, ite_self]
  simp only [hplain, Option.map_map]
  rfl

theorem get?_normalized_orNull (hkey : key = "type" ∨ key = "enum") :
    (normalized keywords).get? key = (keywords.get? key).map fun value =>
      if flagged keywords "nullable" then orNull key value else value := by
  have hgiven : (normalizeFields keywords).get? key = keywords.get? key := by
    rcases hkey with rfl | rfl
    · refine get?_normalizeFields_of_plain fun value hvalue => ?_
      obtain ⟨name, rfl⟩ := h.type value hvalue
      rfl
    · have hdata : walkField normalizeDialect isDataKeyword "enum" = id := rfl
      rw [get?_normalizeFields, hdata, Option.map_id, id]
  have hflag : flagged (normalizeFields keywords) "nullable" = flagged keywords "nullable" :=
    flagged_of_get?_eq (h.flag (by decide))
  rcases hkey with rfl | rfl
  all_goals
    rw [get?_normalized h, if_neg (by decide), if_neg (by simp), if_neg (by decide), if_neg (by simp),
      get?_normalizeNullable (by decide), hgiven, hflag]

theorem known_normalized {value : Json} (hvalue : (normalized keywords).get? key = some value) :
    key ∈ openKeywords := by
  by_cases hkey : key ∈ flagKeywords ++ boundKeywords ++ ["type", "enum"]
  · have hall : ∀ key ∈ flagKeywords ++ boundKeywords ++ ["type", "enum"], key ∈ openKeywords := by
      decide
    exact hall key hkey
  · rw [get?_normalized_of_ne h hkey, Option.map_eq_some_iff] at hvalue
    obtain ⟨given, hgiven, -⟩ := hvalue
    exact h.known key given hgiven

theorem get?_normalized_of_not_mem (hkey : key ∉ openKeywords) :
    (normalized keywords).get? key = none := by
  cases hvalue : (normalized keywords).get? key with
  | none => rfl
  | some value => exact absurd (known_normalized h hvalue) hkey

theorem get?_normalized_walked
    (hkey : key ∈ schemaListKeywords ++ ["properties", "additionalProperties", "items", "not"]) :
    (normalized keywords).get? key = (keywords.get? key).map normalizeDialect := by
  have hne : key ∉ flagKeywords ++ boundKeywords ++ ["type", "enum"] ∧ isDataKeyword key = false := by
    revert key
    decide
  have hwalk : walkField normalizeDialect isDataKeyword key = normalizeDialect := by
    funext value
    rw [walkField, hne.2, if_neg Bool.false_ne_true]
  rw [get?_normalized_of_ne h hne.1, hwalk]

theorem get?_normalized_required :
    (normalized keywords).get? "required" = keywords.get? "required" := by
  rw [get?_normalized_of_ne h (by decide), ← get?_normalizeFields]
  refine get?_normalizeFields_of_plain fun value hvalue => ?_
  obtain ⟨names, rfl⟩ := h.required value hvalue
  rw [Json.strings, normalizeDialect, normalizeItems_eq_map, List.map_map]
  rfl

end

end Dialect

end ApiContract
