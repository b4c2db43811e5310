import ApiContract.Proofs.Preparation.Keeping
import ApiContract.Proofs.Schema.Members

/-! # Merged keywords, key by key

Merging goes through the keywords of a fragment one after the other. What comes of it is said for every
key at once.

* `Origin`, `origin_of_mergeFields`: where the value of a merged keyword comes from.
* `get?_mergeFields_of_get?`: the keywords of the target stay.
* `bothMerged?`, `declaredProperty?_mergeFields`: the merged properties, name by name. -/

set_option autoImplicit false

namespace ApiContract

/-! ## Single keywords -/

/-- Where the value of a keyword of a merged schema comes from: the target or the fragment has it, or it is
made of what both have. -/
inductive Origin (target fragment : Fields) (key : String) (value : Json) : Prop where
  | own (h : target.get? key = some value)
  | added (h : fragment.get? key = some value)
  | required {names more : List Json} (hkey : key = "required")
    (hnames : (target.get? "required").getD (.array []) = .array names)
    (hmore : fragment.get? "required" = some (.array more))
    (hvalue : value = .array (mergeRequired names more))
  | properties {given : Fields} (hkey : key = "properties") (hvalue : value = .object given)

section

variable {target fragment merged next rest : Fields} {key other : String} {value held : Json}

theorem get?_mergeKeyword_of_ne (hother : other ≠ key)
    (h : mergeKeyword target key held = some next) : next.get? other = target.get? other := by
  have hinsert : ∀ held, Fields.get? other (target.insert key held) = target.get? other := by
    intro held
    rw [Fields.get?_insert, if_neg hother.symm]
  unfold mergeKeyword at h
  split at h
  · rename_i hkey
    subst hkey
    split at h
    · cases h
      exact hinsert _
    · cases h
  · split at h
    · rename_i hkey
      subst hkey
      split at h
      · split at h
        · cases h
          rfl
        · cases h
      · cases h
        exact hinsert _
    · split at h
      · cases h
        rfl
      · split at h
        · cases h
          rfl
        · cases h
          rw [Fields.get?_insertIfAbsent, if_neg hother.symm]

theorem origin_of_mergeKeyword (h : mergeKeyword target key held = some next)
    (hvalue : next.get? key = some value) : Origin target ((key, held) :: rest) key value := by
  have hheld : Fields.get? key ((key, held) :: rest) = some held := by
    rw [Fields.get?_cons, if_pos rfl]
  unfold mergeKeyword at h
  split at h
  · rename_i hkey
    subst hkey
    split at h
    · rename_i names more hnames
      cases h
      rw [Fields.get?_insert, if_pos rfl, Option.some.injEq] at hvalue
      exact .required rfl hnames hheld hvalue.symm
    · cases h
  · split at h
    · rename_i hkey
      subst hkey
      split at h
      · split at h
        · cases h
          exact .own hvalue
        · cases h
      · cases h
        rw [Fields.get?_insert, if_pos rfl] at hvalue
        exact .added (hvalue ▸ hheld)
    · split at h
      · cases h
        exact .own hvalue
      · split at h
        · cases h
          exact .own hvalue
        · cases h
          rw [Fields.get?_insertIfAbsent, if_pos rfl] at hvalue
          cases hown : target.get? key with
          | none =>
            rw [hown, Option.getD_none] at hvalue
            exact .added (hvalue ▸ hheld)
          | some own =>
            rw [hown, Option.getD_some] at hvalue
            exact .own (hown.trans hvalue)

/-- The keyword of a merged schema with properties, one step on. -/
theorem exists_of_mergeFields_properties
    (h : mergeFields target (("properties", held) :: rest) = some merged) :
    ∃ properties more : Fields, (target.get? "properties").getD (.object []) = .object properties ∧
      held = .object more ∧
      mergeFields (target.insert "properties" (.object (mergeProperties properties more))) rest =
        some merged := by
  rw [mergeFields.eq_def] at h
  simp only [if_true] at h
  split at h
  · rename_i properties more hproperties
    exact ⟨properties, more, hproperties, rfl, h⟩
  · cases h

theorem Origin.cons (hnew : ∀ field ∈ rest, field.1 ≠ key)
    (hkept : ∀ other, other ≠ key → next.get? other = target.get? other)
    (hown : other = key → next.get? other = some value → Origin target ((key, held) :: rest) other value)
    (h : Origin next rest other value) : Origin target ((key, held) :: rest) other value := by
  have hrest : ∀ {name given}, rest.get? name = some given →
      name ≠ key ∧ Fields.get? name ((key, held) :: rest) = some given := by
    intro name given hgiven
    have hne := hnew _ (Fields.mem_of_get? hgiven)
    exact ⟨hne, by rwa [Fields.get?_cons, if_neg hne.symm]⟩
  cases h with
  | own h =>
    by_cases hkey : other = key
    · exact hown hkey h
    · exact .own ((hkept other hkey).symm.trans h)
  | added h => exact .added (hrest h).2
  | required hkey hnames hmore hvalue =>
    obtain ⟨hne, hmore⟩ := hrest hmore
    rw [hkept "required" hne] at hnames
    exact .required hkey hnames hmore hvalue
  | properties hkey hvalue => exact .properties hkey hvalue

theorem origin_of_mergeFields (hfragment : fragment.Ordered)
    (h : mergeFields target fragment = some merged) (hvalue : merged.get? key = some value) :
    Origin target fragment key value := by
  induction fragment generalizing target with
  | nil =>
    rw [mergeFields] at h
    cases h
    exact .own hvalue
  | cons field rest ih =>
    obtain ⟨name, held⟩ := field
    obtain ⟨hfirst, hrest⟩ := Fields.ordered_cons.1 hfragment
    have hnew : ∀ field ∈ rest, field.1 ≠ name := by
      rintro field hfield rfl
      exact String.lt_irrefl _ (hfirst field hfield)
    by_cases hname : name = "properties"
    · subst hname
      obtain ⟨properties, more, -, -, h⟩ := exists_of_mergeFields_properties h
      refine (ih hrest h).cons hnew (fun other hother => ?_) fun hkey hown => ?_
      · rw [Fields.get?_insert, if_neg hother.symm]
      · rw [Fields.get?_insert, if_pos hkey.symm, Option.some.injEq] at hown
        exact .properties hkey hown.symm
    · rw [mergeFields_keyword hname, Option.bind_eq_some_iff] at h
      obtain ⟨next, hnext, h⟩ := h
      refine (ih hrest h).cons hnew (fun other hother => get?_mergeKeyword_of_ne hother hnext) ?_
      rintro rfl hown
      exact origin_of_mergeKeyword hnext hown

/-- The keywords of the target stay as they are, apart from those that are joined. -/
theorem get?_mergeFields_of_get? (hrequired : key ≠ "required") (hproperties : key ≠ "properties")
    (h : mergeFields target fragment = some merged) (hvalue : target.get? key = some value) :
    merged.get? key = some value := by
  induction fragment generalizing target with
  | nil =>
    rw [mergeFields] at h
    cases h
    exact hvalue
  | cons field rest ih =>
    obtain ⟨name, held⟩ := field
    by_cases hname : name = "properties"
    · subst hname
      obtain ⟨given, more, -, -, h⟩ := exists_of_mergeFields_properties h
      refine ih h ?_
      rw [Fields.get?_insert, if_neg hproperties.symm]
      exact hvalue
    · rw [mergeFields_keyword hname, Option.bind_eq_some_iff] at h
      obtain ⟨next, hnext, h⟩ := h
      refine ih h ?_
      by_cases hkey : key = name
      · subst hkey
        unfold mergeKeyword at hnext
        rw [if_neg hrequired] at hnext
        split at hnext
        · rename_i hkey
          subst hkey
          rw [hvalue] at hnext
          dsimp only at hnext
          split at hnext
          · cases hnext
            exact hvalue
          · cases hnext
        · split at hnext
          · cases hnext
            exact hvalue
          · split at hnext
            · cases hnext
              exact hvalue
            · cases hnext
              rw [Fields.get?_insertIfAbsent, if_pos rfl, hvalue, Option.getD_some]
      · rw [get?_mergeKeyword_of_ne hkey hnext]
        exact hvalue

end

/-! ## Properties -/

/-- The schema of a property of two merged schemas, from the schemas that the two give it. -/
def bothMerged? : Option Json → Option Json → Option Json
  | some a, some b => some (mergeSchemas a b)
  | some a, none => some a
  | none, other => other

theorem bothMerged?_none (own : Option Json) : bothMerged? own none = own := by
  cases own <;> rfl

section

variable {target fragment merged properties more : Fields} {name : String}

theorem get?_mergeProperties (hmore : more.Ordered) :
    (mergeProperties properties more).get? name =
      bothMerged? (properties.get? name) (more.get? name) := by
  induction more generalizing properties with
  | nil => rw [mergeProperties, Fields.get?_nil, bothMerged?_none]
  | cons field rest ih =>
    obtain ⟨first, schema⟩ := field
    obtain ⟨-, hrest⟩ := Fields.ordered_cons.1 hmore
    rw [mergeProperties, ih hrest, Fields.get?_insert, Fields.get?_cons]
    by_cases hname : first = name
    · subst hname
      rw [if_pos rfl, if_pos rfl, Fields.get?_rest_eq_none hmore, bothMerged?_none]
      cases properties.get? first <;> rfl
    · rw [if_neg hname, if_neg hname]

theorem declaredProperty?_congr {given : Fields}
    (h : given.get? "properties" = target.get? "properties") :
    declaredProperty? given name = declaredProperty? target name := by
  rw [declaredProperty?, h, declaredProperty?]

theorem declaredProperty?_of_getD
    (h : (target.get? "properties").getD (.object []) = .object properties) :
    declaredProperty? target name = properties.get? name := by
  unfold declaredProperty?
  cases hheld : target.get? "properties" with
  | none =>
    rw [hheld, Option.getD_none, Json.object.injEq] at h
    rw [← h, Fields.get?_nil]
  | some held =>
    rw [hheld, Option.getD_some] at h
    rw [h]

/-- The merged properties, name by name. -/
theorem declaredProperty?_mergeFields (hfragment : (Json.object fragment).ordered = true)
    (h : mergeFields target fragment = some merged) : declaredProperty? merged name =
      bothMerged? (declaredProperty? target name) (declaredProperty? fragment name) := by
  induction fragment generalizing target with
  | nil =>
    rw [mergeFields] at h
    cases h
    exact (bothMerged?_none _).symm
  | cons field rest ih =>
    obtain ⟨key, held⟩ := field
    obtain ⟨hkeys, hvalues⟩ := Json.ordered_object.1 hfragment
    obtain ⟨-, hrestKeys⟩ := Fields.ordered_cons.1 hkeys
    rw [List.forall_mem_cons] at hvalues
    have hrest : (Json.object rest).ordered = true := Json.ordered_object.2 ⟨hrestKeys, hvalues.2⟩
    by_cases hkey : key = "properties"
    · subst hkey
      obtain ⟨properties, more, hproperties, rfl, hstep⟩ := exists_of_mergeFields_properties h
      have hnone : declaredProperty? rest name = none := by
        rw [declaredProperty?, Fields.get?_rest_eq_none hkeys]
      have hinserted : Fields.get? "properties"
          (target.insert "properties" (.object (mergeProperties properties more))) =
            some (.object (mergeProperties properties more)) := by
        rw [Fields.get?_insert, if_pos rfl]
      have hown : Fields.get? "properties" (("properties", Json.object more) :: rest) =
          some (.object more) := by
        rw [Fields.get?_cons, if_pos rfl]
      rw [ih hrest hstep, hnone, bothMerged?_none, declaredProperty?_of_object hinserted,
        get?_mergeProperties (Json.ordered_object.1 hvalues.1).1, declaredProperty?_of_getD hproperties,
        declaredProperty?_of_object hown]
    · rw [mergeFields_keyword hkey, Option.bind_eq_some_iff] at h
      obtain ⟨next, hnext, h⟩ := h
      have hshown : declaredProperty? ((key, held) :: rest) name = declaredProperty? rest name :=
        declaredProperty?_congr (by rw [Fields.get?_cons, if_neg hkey])
      rw [ih hrest h, hshown,
        declaredProperty?_congr (get?_mergeKeyword_of_ne (Ne.symm hkey) hnext)]

theorem ordered_of_declaredProperty? {schema : Json} (hordered : (Json.object target).ordered = true)
    (h : declaredProperty? target name = some schema) : schema.ordered = true := by
  obtain ⟨properties, hproperties, hschema⟩ := declaredProperty?_eq_some.1 h
  exact Json.ordered_of_get? (Json.ordered_of_get? hordered hproperties) hschema

theorem sizeOf_declaredProperty?_lt {schema : Json} (h : declaredProperty? target name = some schema) :
    sizeOf schema < sizeOf (Json.object target) := by
  obtain ⟨properties, hproperties, hschema⟩ := declaredProperty?_eq_some.1 h
  have hsize := Json.sizeOf_member_lt (Fields.mem_of_get? hschema)
  exact Nat.lt_trans hsize (Json.sizeOf_member_lt (Fields.mem_of_get? hproperties))

end

end ApiContract
