import ApiContract.Proofs.Preparation.Laxity
import ApiContract.Proofs.Preparation.Rewriting

/-! # Keywords that are retained

Preparing a document takes keywords away from an object and changes others. Here it is said, for each step
of the preparation, which keys of an object stay and what may stand under them afterwards.

* `Lengthened`: a scalar may be replaced, a list may get longer.
* `KeptByDialect`, `exists_get?_normalized`: the dialect takes flags and some bounds away.
* `Retained`, `exists_retained_composedFields?`: merging keeps the keywords of a schema, with more
  properties. -/

set_option autoImplicit false

namespace ApiContract

/-! ## Values that get longer -/

/-- A value in place of another one that still has all parts of it. -/
inductive Lengthened : Json → Json → Prop where
  | same (value : Json) : Lengthened value value
  | longer (items more : List Json) : Lengthened (.array items) (.array (items ++ more))
  | scalar {value result : Json} (hobject : value.isObject = false) (hitems : value.items? = none) :
    Lengthened value result

theorem Lengthened.child? {value result part : Json} {step : String} (h : Lengthened value result)
    (hpart : value.child? step = some part) : result.child? step = some part := by
  cases h with
  | same => exact hpart
  | longer items more =>
    obtain ⟨i, hi, hitem⟩ := Option.bind_eq_some_iff.1 hpart
    have hlt : i < items.length := (List.getElem?_eq_some_iff.1 hitem).1
    rw [Json.child?, hi, Option.bind_some, List.getElem?_append_left hlt]
    exact hitem
  | scalar hobject hitems =>
    cases value with
    | object fields => cases hobject
    | array items => cases hitems
    | _ => cases hpart

theorem Lengthened.trans {first second third : Json} (h : Lengthened first second)
    (hnext : Lengthened second third) : Lengthened first third := by
  cases h with
  | same => exact hnext
  | longer items more =>
    cases hnext with
    | same => exact .longer items more
    | longer _ further =>
      rw [List.append_assoc]
      exact .longer items (more ++ further)
    | scalar _ hitems => cases hitems
  | scalar hobject hitems => exact .scalar hobject hitems

/-! ## The dialect -/

open Dialect

/-- A flag that makes a bound exclusive takes the bound's place or vanishes, and the bound goes with it. -/
structure KeptByBound (exclusive inclusive : String) (fields : Fields) (key : String) : Prop where
  flag : key = exclusive → fields.get? exclusive ≠ some (.bool false) ∧
    (fields.get? exclusive = some (.bool true) → ∃ bound, fields.get? inclusive = some bound)
  bound : key = inclusive → fields.get? exclusive ≠ some (.bool true)

/-- The keys that are still there when an object is written as JSON Schema does. -/
structure KeptByDialect (fields : Fields) (key : String) : Prop where
  nullable : key = "nullable" → fields.get? "nullable" ≠ some (.bool true)
  minimum : KeptByBound "exclusiveMinimum" "minimum" fields key
  maximum : KeptByBound "exclusiveMaximum" "maximum" fields key

section

variable {fields : Fields} {key : String} {value : Json}

theorem get?_normalizeBound_of_ne {exclusive inclusive : String} (hexclusive : key ≠ exclusive)
    (hinclusive : key ≠ inclusive) :
    (normalizeBound exclusive inclusive fields).get? key = fields.get? key := by
  unfold normalizeBound
  split
  · simp only
    split
    · rw [Fields.get?_insert, if_neg hexclusive.symm, Fields.get?_erase, if_neg hinclusive.symm,
        Fields.get?_erase, if_neg hexclusive.symm]
    · rw [Fields.get?_erase, if_neg hexclusive.symm]
  · rw [Fields.get?_erase, if_neg hexclusive.symm]
  · rfl

theorem exists_get?_normalizeBound {exclusive inclusive : String} (hne : exclusive ≠ inclusive)
    (hkept : KeptByBound exclusive inclusive fields key) (hvalue : fields.get? key = some value) :
    ∃ result, (normalizeBound exclusive inclusive fields).get? key = some result ∧
      Lengthened value result := by
  by_cases hkey : key = exclusive
  · subst hkey
    obtain ⟨hfalse, htrue⟩ := hkept.flag rfl
    unfold normalizeBound
    split
    · rename_i hflag
      obtain ⟨bound, hbound⟩ := htrue hflag
      cases hvalue.symm.trans hflag
      have hrest : (Fields.erase key fields).get? inclusive = some bound := by
        rw [Fields.get?_erase, if_neg hne, hbound]
      simp only [hrest]
      exact ⟨bound, by rw [Fields.get?_insert, if_pos rfl], .scalar rfl rfl⟩
    · rename_i hflag
      exact absurd hflag hfalse
    · exact ⟨value, hvalue, .same value⟩
  · by_cases hbound : key = inclusive
    · subst hbound
      unfold normalizeBound
      split
      · rename_i hflag
        exact absurd hflag (hkept.bound rfl)
      · exact ⟨value, by rw [Fields.get?_erase, if_neg (Ne.symm hkey), hvalue], .same value⟩
      · exact ⟨value, hvalue, .same value⟩
    · exact ⟨value, by rw [get?_normalizeBound_of_ne hkey hbound, hvalue], .same value⟩

theorem lengthened_orNull (key : String) (value : Json) : Lengthened value (orNull key value) := by
  unfold orNull typeOrNull valuesOrNull
  split
  · split
    · exact .scalar rfl rfl
    · exact .same _
  · split
    · split
      · split
        · exact .same _
        · exact .longer ..
      · exact .same _
    · exact .same _

theorem exists_get?_normalizeNullable
    (hkept : key = "nullable" → fields.get? "nullable" ≠ some (.bool true))
    (hvalue : fields.get? key = some value) :
    ∃ result, (normalizeNullable fields).get? key = some result ∧ Lengthened value result := by
  by_cases hkey : key = "nullable"
  · subst hkey
    unfold normalizeNullable
    split
    · rename_i hflag
      exact absurd hflag (hkept rfl)
    · exact ⟨value, hvalue, .same value⟩
  · rw [get?_normalizeNullable hkey, hvalue]
    refine ⟨_, rfl, ?_⟩
    split
    · exact lengthened_orNull key value
    · exact .same value

theorem KeptByBound.congr {exclusive inclusive : String} {given : Fields}
    (h : KeptByBound exclusive inclusive fields key)
    (hexclusive : given.get? exclusive = fields.get? exclusive)
    (hinclusive : given.get? inclusive = fields.get? inclusive) :
    KeptByBound exclusive inclusive given key where
  flag hkey := by
    rw [hexclusive, hinclusive]
    exact h.flag hkey
  bound hkey := by
    rw [hexclusive]
    exact h.bound hkey

theorem get?_normalizeNullable_of_ne (hnullable : key ≠ "nullable") (htype : key ≠ "type")
    (henum : key ≠ "enum") : (normalizeNullable fields).get? key = fields.get? key := by
  rw [get?_normalizeNullable hnullable]
  simp [orNull, htype, henum]

/-- Keywords that the dialect keeps are still there, with a value that has the same parts. -/
theorem exists_get?_normalizeKeywords (hkept : KeptByDialect fields key)
    (hvalue : fields.get? key = some value) :
    ∃ result, (normalizeKeywords fields).get? key = some result ∧ Lengthened value result := by
  obtain ⟨first, hfirst, hone⟩ := exists_get?_normalizeNullable hkept.nullable hvalue
  have hminimum := hkept.minimum.congr
    (@get?_normalizeNullable_of_ne fields _ (by decide) (by decide) (by decide))
    (get?_normalizeNullable_of_ne (by decide) (by decide) (by decide))
  obtain ⟨second, hsecond, htwo⟩ := exists_get?_normalizeBound (by decide) hminimum hfirst
  have hmaximum := hkept.maximum.congr
    (@get?_normalizeNullable_of_ne fields _ (by decide) (by decide) (by decide))
    (get?_normalizeNullable_of_ne (by decide) (by decide) (by decide))
  obtain ⟨third, hthird, hthree⟩ := exists_get?_normalizeBound (by decide)
    (hmaximum.congr (get?_normalizeBound_of_ne (by decide) (by decide))
      (get?_normalizeBound_of_ne (by decide) (by decide))) hsecond
  exact ⟨third, hthird, (hone.trans htwo).trans hthree⟩

/-- Walking the fields first changes no flag. -/
theorem get?_normalizeFields_flag {flag : Bool} :
    (normalizeFields fields).get? key = some (.bool flag) ↔ fields.get? key = some (.bool flag) := by
  rw [get?_normalizeFields, Option.map_eq_some_iff]
  constructor
  · rintro ⟨held, hheld, hwalked⟩
    unfold walkField at hwalked
    split at hwalked
    · rw [hheld, hwalked]
    · cases held with
      | bool b =>
        cases hwalked
        exact hheld
      | _ => cases hwalked
  · exact fun hflag => ⟨.bool flag, hflag, ite_self _⟩

theorem KeptByBound.normalizeFields {exclusive inclusive : String}
    (h : KeptByBound exclusive inclusive fields key) :
    KeptByBound exclusive inclusive (normalizeFields fields) key where
  flag hkey := by
    obtain ⟨hfalse, htrue⟩ := h.flag hkey
    refine ⟨fun hflag => hfalse (get?_normalizeFields_flag.1 hflag), fun hflag => ?_⟩
    obtain ⟨bound, hbound⟩ := htrue (get?_normalizeFields_flag.1 hflag)
    exact ⟨_, by rw [get?_normalizeFields, hbound, Option.map_some]⟩
  bound hkey hflag := h.bound hkey (get?_normalizeFields_flag.1 hflag)

theorem exists_get?_normalized (hkept : KeptByDialect fields key)
    (hvalue : fields.get? key = some value) :
    ∃ result, (normalized fields).get? key = some result ∧
      Lengthened (walkField normalizeDialect isDataKeyword key value) result := by
  refine exists_get?_normalizeKeywords ⟨fun hkey hflag => ?_, hkept.minimum.normalizeFields,
    hkept.maximum.normalizeFields⟩ ?_
  · exact hkept.nullable hkey (get?_normalizeFields_flag.1 hflag)
  · rw [get?_normalizeFields, hvalue, Option.map_some]

/-- Keywords that are none of the dialect's. -/
theorem get?_normalized_of_not_walked
    (hkey : key ∉ ["nullable", "type", "enum", "exclusiveMinimum", "minimum", "exclusiveMaximum",
      "maximum"]) :
    (normalized fields).get? key =
      (fields.get? key).map (walkField normalizeDialect isDataKeyword key) := by
  simp only [List.mem_cons, List.not_mem_nil, or_false, not_or] at hkey
  obtain ⟨hnullable, htype, henum, hleast, hminimum, hmost, hmaximum⟩ := hkey
  rw [normalized, normalizeKeywords, get?_normalizeBound_of_ne hmost hmaximum,
    get?_normalizeBound_of_ne hleast hminimum, get?_normalizeNullable_of_ne hnullable htype henum,
    get?_normalizeFields]

end

/-! ## Merging -/

/-- What merging leaves of a keyword: a value with the same parts, or an object of properties under the
same names. -/
inductive Retained (key : String) : Json → Json → Prop where
  | lengthened {value result : Json} (h : Lengthened value result) : Retained key value result
  | properties {given results : Fields} (hkey : key = "properties")
    (h : ∀ name value, given.get? name = some value →
      ∃ result, results.get? name = some result ∧ (result = value ∨ result.isObject = true)) :
    Retained key (.object given) (.object results)

section

variable {target fragment merged next : Fields} {key : String} {value held : Json}

theorem Retained.trans {first second third : Json} (h : Retained key first second)
    (hnext : Retained key second third) : Retained key first third := by
  cases h with
  | lengthened h =>
    cases hnext with
    | lengthened hnext => exact .lengthened (h.trans hnext)
    | properties hkey hnext =>
      cases h with
      | same => exact .properties hkey hnext
      | scalar hobject hitems => exact .lengthened (.scalar hobject hitems)
  | properties hkey h =>
    cases hnext with
    | lengthened hnext =>
      cases hnext with
      | same => exact .properties hkey h
      | scalar hobject _ => cases hobject
    | properties _ hnext =>
      refine .properties hkey fun name value hvalue => ?_
      obtain ⟨middle, hmiddle, hone⟩ := h name value hvalue
      obtain ⟨result, hresult, htwo⟩ := hnext name middle hmiddle
      refine ⟨result, hresult, htwo.elim (fun hsame => ?_) .inr⟩
      rwa [hsame]

theorem exists_mergeRequired (names more : List Json) :
    ∃ further, mergeRequired names more = names ++ further := by
  unfold mergeRequired
  induction more generalizing names with
  | nil => exact ⟨[], (List.append_nil names).symm⟩
  | cons name rest ih =>
    rw [List.foldl_cons]
    split
    · exact ih names
    · obtain ⟨further, hfurther⟩ := ih (names ++ [name])
      exact ⟨name :: further, by rw [hfurther, List.append_assoc, List.singleton_append]⟩

theorem exists_lengthened_mergeKeyword {name : String} (h : mergeKeyword target name held = some next)
    (hvalue : target.get? key = some value) :
    ∃ result, next.get? key = some result ∧ Lengthened value result := by
  by_cases hkey : key = name
  · subst hkey
    unfold mergeKeyword at h
    split at h
    · rename_i hname
      subst hname
      rw [hvalue, Option.getD_some] at h
      split at h
      · rename_i names more
        cases h
        obtain ⟨further, hfurther⟩ := exists_mergeRequired names more
        rw [hfurther]
        exact ⟨_, by rw [Fields.get?_insert, if_pos rfl], .longer names further⟩
      · cases h
    · split at h
      · rename_i hname
        subst hname
        rw [hvalue] at h
        simp only at h
        split at h
        · cases h
          exact ⟨value, hvalue, .same value⟩
        · cases h
      · split at h
        · cases h
          exact ⟨value, hvalue, .same value⟩
        · split at h
          · cases h
            exact ⟨value, hvalue, .same value⟩
          · cases h
            rw [Fields.get?_insertIfAbsent, if_pos rfl, hvalue, Option.getD_some]
            exact ⟨value, rfl, .same value⟩
  · exact ⟨value, by rw [get?_mergeKeyword_of_ne hkey h, hvalue], .same value⟩

theorem isObject_mergeSchemas (a b : Json) : (mergeSchemas a b).isObject = true := by
  unfold mergeSchemas
  split
  · split
    · rfl
    · split <;> rfl
  · rfl

theorem exists_get?_mergeProperties {properties more : Fields} {name : String}
    (hvalue : properties.get? name = some value) :
    ∃ result, (mergeProperties properties more).get? name = some result ∧
      (result = value ∨ result.isObject = true) := by
  induction more generalizing properties value with
  | nil =>
    rw [mergeProperties]
    exact ⟨value, hvalue, .inl rfl⟩
  | cons field rest ih =>
    obtain ⟨other, schema⟩ := field
    rw [mergeProperties]
    by_cases hname : other = name
    · subst hname
      simp only [hvalue]
      have hboth : (properties.insert other (mergeSchemas value schema)).get? other =
          some (mergeSchemas value schema) := by
        rw [Fields.get?_insert, if_pos rfl]
      obtain ⟨result, hresult, hkind⟩ := ih hboth
      exact ⟨result, hresult, .inr (hkind.elim (fun hsame => hsame ▸ isObject_mergeSchemas _ _) id)⟩
    · refine ih ?_
      rw [Fields.get?_insert, if_neg hname, hvalue]

/-- The keywords of a schema stay when others are merged into it. -/
theorem exists_retained_mergeFields (h : mergeFields target fragment = some merged)
    (hvalue : target.get? key = some value) :
    ∃ result, merged.get? key = some result ∧ Retained key value result := by
  induction fragment generalizing target value with
  | nil =>
    rw [mergeFields] at h
    cases h
    exact ⟨value, hvalue, .lengthened (.same value)⟩
  | cons field rest ih =>
    obtain ⟨name, held⟩ := field
    by_cases hname : name = "properties"
    · subst hname
      obtain ⟨properties, more, hproperties, rfl, hrest⟩ := exists_of_mergeFields_properties h
      by_cases hkey : key = "properties"
      · subst hkey
        rw [hvalue, Option.getD_some] at hproperties
        subst hproperties
        obtain ⟨result, hresult, hretained⟩ := ih hrest
          (by rw [Fields.get?_insert, if_pos rfl])
        exact ⟨result, hresult, .trans (.properties rfl fun _ _ => exists_get?_mergeProperties) hretained⟩
      · exact ih hrest (by rw [Fields.get?_insert, if_neg (Ne.symm hkey), hvalue])
    · rw [mergeFields_keyword hname, Option.bind_eq_some_iff] at h
      obtain ⟨next, hnext, hrest⟩ := h
      obtain ⟨middle, hmiddle, hlonger⟩ := exists_lengthened_mergeKeyword hnext hvalue
      obtain ⟨result, hresult, hretained⟩ := ih hrest hmiddle
      exact ⟨result, hresult, .trans (.lengthened hlonger) hretained⟩

/-- A discriminator is never merged in. -/
theorem get?_discriminator_mergeFields (h : mergeFields target fragment = some merged) :
    merged.get? "discriminator" = target.get? "discriminator" := by
  induction fragment generalizing target with
  | nil =>
    rw [mergeFields] at h
    cases h
    rfl
  | cons field rest ih =>
    obtain ⟨name, held⟩ := field
    by_cases hname : name = "properties"
    · subst hname
      obtain ⟨properties, more, -, -, hrest⟩ := exists_of_mergeFields_properties h
      rw [ih hrest, Fields.get?_insert, if_neg (by decide)]
    · rw [mergeFields_keyword hname, Option.bind_eq_some_iff] at h
      obtain ⟨next, hnext, hrest⟩ := h
      rw [ih hrest]
      by_cases hdiscriminator : name = "discriminator"
      · subst hdiscriminator
        have hsame : mergeKeyword target "discriminator" held = some target := by
          unfold mergeKeyword
          rw [if_neg (by decide), if_neg (by decide), if_pos rfl]
        cases hsame.symm.trans hnext
        rfl
      · exact get?_mergeKeyword_of_ne (Ne.symm hdiscriminator) hnext

section

variable {document : Json} {depth : Nat} {followed : List String} {fragments : List Json}

/-- What holds of a schema after each merge holds of it in the end. -/
theorem mergeFragments?_induction {p : Fields → Prop} (htarget : p target)
    (hstep : ∀ target fragment merged, p target → mergeFields target fragment = some merged → p merged)
    (hmerged : fragments.foldlM (mergeFragment? document depth followed) (some target) =
      some (some merged)) : p merged := by
  induction fragments generalizing target with
  | nil =>
    cases hmerged
    exact htarget
  | cons fragment rest ih =>
    rw [List.foldlM_cons] at hmerged
    obtain ⟨next, hnext, hmerged⟩ := Option.bind_eq_some_iff.1 hmerged
    obtain ⟨resolved, -, rfl⟩ := Option.map_eq_some_iff.1 hnext
    cases hown : resolved.bind (mergeFields target) with
    | none =>
      rw [hown, foldlM_mergeFragment?_none] at hmerged
      cases hmerged
    | some flat =>
      rw [hown] at hmerged
      obtain ⟨keywords, -, hflat⟩ := Option.bind_eq_some_iff.1 hown
      exact ih (hstep target keywords flat htarget hflat) hmerged

/-- The keywords of a composition stay when its fragments are merged into it, but for the fragments. -/
theorem exists_retained_composedFields? {fields keywords : Fields}
    (h : composedFields? document depth followed fields = some keywords)
    (hkey : ∀ fragments, fields.get? "allOf" = some (.array fragments) → key ≠ "allOf")
    (hvalue : fields.get? key = some value) :
    ∃ result, keywords.get? key = some result ∧ Retained key value result := by
  unfold composedFields? at h
  split at h
  · rename_i fragments hall
    obtain ⟨flat, hflat, rfl⟩ := Option.map_eq_some_iff.1 h
    cases flat with
    | none => exact ⟨value, hvalue, .lengthened (.same value)⟩
    | some merged =>
      refine mergeFragments?_induction (p := fun target =>
        ∃ result, Fields.get? key target = some result ∧ Retained key value result)
        ⟨value, ?_, .lengthened (.same value)⟩ (fun target fragment merged htarget hmerged => ?_) hflat
      · rw [Fields.get?_erase, if_neg (hkey fragments hall).symm, hvalue]
      · obtain ⟨middle, hmiddle, hfirst⟩ := htarget
        obtain ⟨result, hresult, hnext⟩ := exists_retained_mergeFields hmerged hmiddle
        exact ⟨result, hresult, hfirst.trans hnext⟩
  · cases h
    exact ⟨value, hvalue, .lengthened (.same value)⟩

theorem get?_discriminator_composedFields? {fields keywords : Fields}
    (h : composedFields? document depth followed fields = some keywords) :
    keywords.get? "discriminator" = fields.get? "discriminator" := by
  unfold composedFields? at h
  split at h
  · obtain ⟨flat, hflat, rfl⟩ := Option.map_eq_some_iff.1 h
    cases flat with
    | none => rfl
    | some merged =>
      refine mergeFragments?_induction
        (p := fun target => Fields.get? "discriminator" target = fields.get? "discriminator") ?_
        (fun target fragment merged htarget hmerged => ?_) hflat
      · rw [Fields.get?_erase, if_neg (by decide)]
      · rw [get?_discriminator_mergeFields hmerged, htarget]
  · cases h
    rfl

end

end

end ApiContract
