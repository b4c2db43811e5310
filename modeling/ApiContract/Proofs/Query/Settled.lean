import ApiContract.Validator
import ApiContract.Proofs.Json.Pointers

/-! # Queries that are settled

Nesting and coercing a query leaves nothing for a second time: the names that come out spell themselves,
they are in order, and no text that could be converted is left as it was.

* `nestFields_of_settled`: nesting keeps fields in order whose names spell one step.
* `coerceValue_coerceValue`: coercion by a schema settles a value for that schema.
* `Validator.checkQuery_normalized`: a query as it was checked is checked with the same outcome. -/

set_option autoImplicit false

namespace ApiContract

/-! ## Names -/

/-- A name without brackets. -/
def Bare (name : String) : Prop := '[' ∉ name.toList ∧ ']' ∉ name.toList

/-- A name without brackets spells itself. -/
theorem nameSteps_of_bare {name : String} (h : Bare name) : nameSteps name = [name] := by
  rw [nameSteps, List.splitOn_eq_singleton h.1, List.map_singleton, List.filter_eq_self.2]
  · simp
  · intro c hc
    have hne : c ≠ ']' := fun e => h.2 (e ▸ hc)
    simpa using hne

theorem bare_of_mem_nameSteps {name step : String} (h : step ∈ nameSteps name) : Bare step := by
  obtain ⟨piece, hpiece, rfl⟩ := List.mem_map.1 h
  rw [Bare, String.toList_ofList]
  refine ⟨fun hopen => ?_, fun hclose => ?_⟩
  · exact not_mem_of_mem_splitOn hpiece (List.mem_filter.1 hopen).1
  · simpa using (List.mem_filter.1 hclose).2

/-! ## Nesting -/

namespace Fields

/-- Fields in order whose names have no brackets. -/
def Settled (fields : Fields) : Prop := fields.Ordered ∧ ∀ field ∈ fields, Bare field.1

/-- A key behind all others is set at the end. -/
theorem insert_of_forall_lt {key : String} {value : Json} {fields : Fields}
    (h : ∀ field ∈ fields, field.1 < key) : fields.insert key value = fields ++ [(key, value)] := by
  induction fields with
  | nil => rfl
  | cons field rest ih =>
    have hlt : field.1 < key := h field (List.mem_cons_self ..)
    have hne : field.1 ≠ key := fun e => String.lt_irrefl _ (e ▸ hlt)
    rw [insert, if_neg (by simpa using hne), if_neg (String.lt_asymm hlt),
      ih fun other hother => h other (List.mem_cons_of_mem _ hother)]
    rfl

/-- What is in order and has its names keeps settled. -/
theorem settled_of_keys {fields given : Fields} (hkeys : fields.map Prod.fst = given.map Prod.fst)
    (h : given.Settled) : fields.Settled := by
  refine ⟨?_, fun field hfield => ?_⟩
  · rw [Ordered, hkeys]
    exact h.1
  · have hmem : field.1 ∈ given.map Prod.fst := hkeys ▸ List.mem_map_of_mem hfield
    obtain ⟨other, hother, hsame⟩ := List.mem_map.1 hmem
    exact hsame ▸ h.2 other hother

theorem Settled.insert {fields : Fields} (h : fields.Settled) {key : String} (hkey : Bare key)
    (value : Json) : (fields.insert key value).Settled := by
  refine ⟨h.1.insert key value, fun field hfield => ?_⟩
  rcases mem_insert hfield with rfl | hmem
  · exact hkey
  · exact h.2 field hmem

end Fields

theorem settled_insertNested {value : Json} {steps : List String} {target : Fields}
    (hsteps : ∀ step ∈ steps, Bare step) (h : target.Settled) :
    (insertNested value steps target).Settled := by
  match steps with
  | [] => exact h
  | [last] => exact h.insert (hsteps last (List.mem_cons_self ..)) value
  | step :: next :: rest => exact h.insert (hsteps step (List.mem_cons_self ..)) _

theorem settled_nestFields (fields : Fields) : (nestFields fields).Settled := by
  refine List.foldlRecOn fields _ ⟨Fields.ordered_nil, fun field hfield => by cases hfield⟩ ?_
  intro target htarget field _
  exact settled_insertNested (fun step hstep => bare_of_mem_nameSteps hstep) htarget

/-- Nesting goes through settled fields and sets each behind those it has set. -/
theorem nestFields_of_settled {fields : Fields} (h : fields.Settled) : nestFields fields = fields := by
  have hloop : ∀ done rest : Fields, (done ++ rest).Settled →
      rest.foldl (fun nested field => insertNested field.2 (nameSteps field.1) nested) done =
        done ++ rest := by
    intro done rest
    induction rest generalizing done with
    | nil => intro _; simp
    | cons field rest ih =>
      intro hsettled
      have hbare : Bare field.1 := hsettled.2 field (by simp)
      have hbehind : ∀ other ∈ done, other.1 < field.1 := fun other hother =>
        (List.pairwise_append.1 (List.pairwise_map.1 hsettled.1)).2.2 other hother field (by simp)
      rw [List.foldl_cons, nameSteps_of_bare hbare, insertNested, Fields.insert_of_forall_lt hbehind,
        ih _ (by simpa using hsettled), List.append_assoc]
      rfl
  exact hloop [] fields h

/-! ## Coercion -/

/-- A conversion whose results are never converted again. -/
def Final (convert : String → Option Json) : Prop :=
  ∀ text value, convert text = some value → value.string? = none

theorem coerceScalar_coerceScalar {convert : String → Option Json} (h : Final convert) (value : Json) :
    coerceScalar convert (coerceScalar convert value) = coerceScalar convert value := by
  cases value with
  | string text =>
    cases hconvert : convert text with
    | none => simp only [coerceScalar, hconvert, Option.getD_none]
    | some converted =>
      have hfinal := h text converted hconvert
      simp only [coerceScalar, hconvert, Option.getD_some]
      cases converted with
      | string other => simp [Json.string?] at hfinal
      | _ => rfl
  | _ => rfl

theorem exists_numberValue (x : Binary64) : ∃ n, numberValue x = .number n := by
  unfold numberValue
  dsimp only
  split <;> exact ⟨_, rfl⟩

section

variable {policy : CoercionPolicy} {text : String} {value : Json}

theorem exists_number_of_coerceNumber (h : coerceNumber text = some value) : ∃ n, value = .number n := by
  obtain ⟨x, -, rfl⟩ := Option.map_eq_some_iff.1 h
  exact exists_numberValue x

theorem exists_number_of_coerceInteger (h : coerceInteger policy text = some value) :
    ∃ n, value = .number n := by
  obtain ⟨x, -, hvalue⟩ := Option.bind_eq_some_iff.1 h
  split at hvalue
  · split at hvalue
    · cases hvalue
      exact exists_numberValue x
    · cases hvalue
  · cases hvalue
    rw [floorNumber]
    split <;> exact exists_numberValue _

/-- Only the strict policy makes anything but a flag of a text. -/
theorem coerceFlag_cases (policy : CoercionPolicy) (text : String) :
    (∃ b, coerceFlag policy text = .bool b) ∨ policy = .strict ∧ coerceFlag policy text = .null := by
  simp only [coerceFlag]
  split
  · rename_i hstrict
    split
    · exact .inl ⟨true, rfl⟩
    · split
      · exact .inl ⟨false, rfl⟩
      · exact .inr ⟨hstrict, rfl⟩
  · exact .inl ⟨_, rfl⟩

end

theorem final_coerceNumber : Final coerceNumber := by
  intro text value h
  obtain ⟨n, rfl⟩ := exists_number_of_coerceNumber h
  rfl

theorem final_coerceInteger (policy : CoercionPolicy) : Final (coerceInteger policy) := by
  intro text value h
  obtain ⟨n, rfl⟩ := exists_number_of_coerceInteger h
  rfl

theorem final_coerceFlag (policy : CoercionPolicy) :
    Final fun text => some (coerceFlag policy text) := by
  intro text value h
  cases h
  rcases coerceFlag_cases policy text with ⟨b, hflag⟩ | ⟨-, hnull⟩
  · rw [hflag]
    rfl
  · rw [hnull]
    rfl

theorem splitItems_splitItems (value : Json) : splitItems (splitItems value) = splitItems value := by
  cases value <;> rfl

/-- A field coerced by the schema of its name, if there is one. -/
def coerceField (policy : CoercionPolicy) (schemaOf : String → Option Json) (field : String × Json) :
    String × Json :=
  match schemaOf field.1 with
  | some schema => (field.1, coerceValue policy schema field.2)
  | none => field

section

variable {policy : CoercionPolicy} {schema value : Json}

@[simp] theorem coerceField_fst {schemaOf : String → Option Json} (field : String × Json) :
    (coerceField policy schemaOf field).1 = field.1 := by
  unfold coerceField
  split <;> rfl

theorem map_coerceField_twice {schemaOf : String → Option Json}
    (h : ∀ key schema value, schemaOf key = some schema →
      coerceValue policy schema (coerceValue policy schema value) = coerceValue policy schema value)
    (fields : Fields) :
    (fields.map (coerceField policy schemaOf)).map (coerceField policy schemaOf) =
      fields.map (coerceField policy schemaOf) := by
  rw [List.map_map]
  refine List.map_congr_left fun field _ => ?_
  obtain ⟨key, value⟩ := field
  rw [Function.comp_apply, coerceField, coerceField_fst]
  cases hschema : schemaOf key with
  | none => rfl
  | some schema =>
    simp only [coerceField, hschema]
    rw [h key schema value hschema]

theorem coerceValue_integer (h : declaredType? schema = some "integer") :
    coerceValue policy schema value = coerceScalar (coerceInteger policy) value := by
  rw [coerceValue.eq_def, h]
  rfl

theorem coerceValue_number (h : declaredType? schema = some "number") :
    coerceValue policy schema value = coerceScalar coerceNumber value := by
  rw [coerceValue.eq_def, h]
  rfl

theorem coerceValue_boolean (h : declaredType? schema = some "boolean") :
    coerceValue policy schema value =
      coerceScalar (fun text => some (coerceFlag policy text)) value := by
  rw [coerceValue.eq_def, h]
  rfl

/-- An array schema splits texts; its items, if it has a schema for them, are coerced by that. -/
theorem coerceValue_array (h : declaredType? schema = some "array") :
    coerceValue policy schema value =
      match schema.get? "items", splitItems value with
      | some inner, .array items => .array (items.map (coerceValue policy inner))
      | _, split => split := by
  rw [coerceValue.eq_def, h]
  simp only
  split
  · rename_i hitems hsplit
    rw [hitems, hsplit]
  · rename_i hsplit
    split
    · rename_i hitems harray
      exact absurd harray (hsplit _ _ hitems)
    · rfl

/-- An object schema coerces the fields that it has a schema for. -/
theorem coerceValue_object (h : declaredType? schema = some "object") :
    coerceValue policy schema value =
      match (schema.get? "properties").bind Json.fields?, value with
      | some properties, .object fields =>
        .object (fields.map (coerceField policy fun key => properties.get? key))
      | _, other => other := by
  rw [coerceValue.eq_def, h]
  simp only
  split
  · rename_i hproperties
    rw [hproperties]
    refine congrArg Json.object (List.map_congr_left fun field _ => ?_)
    simp only [coerceField]
    split
    · rename_i hfield
      rw [hfield]
    · rename_i hfield
      rw [hfield]
  · rename_i hnone
    split
    · rename_i hproperties
      exact absurd rfl (hnone _ _ hproperties)
    · rfl

/-- Any other schema leaves the value as it is. -/
theorem coerceValue_other
    (h : ∀ type ∈ declaredType? schema,
      type ∉ ["integer", "number", "boolean", "array", "object"]) :
    coerceValue policy schema value = value := by
  rw [coerceValue.eq_def]
  split
  case h_6 => rfl
  all_goals
    rename_i htype
    simp [htype] at h

end

/-- A value coerced by a schema is coerced by it to itself: conversions do not give texts, a split text
is an array, and parts are coerced by smaller schemas. -/
theorem coerceValue_coerceValue (policy : CoercionPolicy) (schema value : Json) :
    coerceValue policy schema (coerceValue policy schema value) = coerceValue policy schema value := by
  by_cases hinteger : declaredType? schema = some "integer"
  · simp only [coerceValue_integer hinteger]
    exact coerceScalar_coerceScalar (final_coerceInteger policy) value
  by_cases hnumber : declaredType? schema = some "number"
  · simp only [coerceValue_number hnumber]
    exact coerceScalar_coerceScalar final_coerceNumber value
  by_cases hboolean : declaredType? schema = some "boolean"
  · simp only [coerceValue_boolean hboolean]
    exact coerceScalar_coerceScalar (final_coerceFlag policy) value
  by_cases harray : declaredType? schema = some "array"
  · simp only [coerceValue_array harray]
    cases hitems : schema.get? "items" with
    | none => exact splitItems_splitItems value
    | some inner =>
      cases hsplit : splitItems value with
      | array items =>
        simp only [splitItems, List.map_map]
        refine congrArg Json.array (List.map_congr_left fun item _ => ?_)
        exact coerceValue_coerceValue policy inner item
      | _ =>
        simp only
        rw [← hsplit, splitItems_splitItems, hsplit]
  by_cases hobject : declaredType? schema = some "object"
  · simp only [coerceValue_object hobject]
    cases hproperties : (schema.get? "properties").bind Json.fields? with
    | none => rfl
    | some properties =>
      cases value with
      | object fields =>
        refine congrArg Json.object (map_coerceField_twice (fun key inner value hinner => ?_) fields)
        exact coerceValue_coerceValue policy inner value
      | _ => rfl
  · have hother : ∀ type ∈ declaredType? schema,
        type ∉ ["integer", "number", "boolean", "array", "object"] := by
      intro type htype
      rw [Option.mem_def] at htype
      simp only [htype, Option.some.injEq] at hinteger hnumber hboolean harray hobject
      simp [hinteger, hnumber, hboolean, harray, hobject]
    simp only [coerceValue_other hother]
termination_by sizeOf schema
decreasing_by
  · exact Json.sizeOf_get?_lt hitems
  · obtain ⟨part, hpart, hfields⟩ := Option.bind_eq_some_iff.1 hproperties
    have h1 := Json.sizeOf_get?_lt hpart
    have h2 := Json.sizeOf_fields_lt hfields
    have h3 := Fields.sizeOf_get?_lt hinner
    omega

/-! ## Parameters -/

namespace Coercer

variable (coercer : Coercer) (fields : Fields)

/-- What a coercer does to every field, if coercion is on. -/
theorem coerce_eq : coercer.coerce fields =
    if coercer.policy.isEnabled then
      fields.map (coerceField coercer.policy fun key => coercer.schemas.get? (lowerCase key))
    else fields := rfl

theorem keys_coerce : (coercer.coerce fields).map Prod.fst = fields.map Prod.fst := by
  rw [coerce_eq]
  split
  · rw [List.map_map]
    exact List.map_congr_left fun field _ => coerceField_fst field
  · rfl

theorem coerce_coerce : coercer.coerce (coercer.coerce fields) = coercer.coerce fields := by
  simp only [coerce_eq]
  split
  · exact map_coerceField_twice
      (fun _ schema value _ => coerceValue_coerceValue coercer.policy schema value) fields
  · rfl

end Coercer

/-! ## Whole queries -/

theorem settled_normalizeQuery (coercer : Option Coercer) (input : Fields) :
    (normalizeQuery coercer input).Settled := by
  cases coercer with
  | none => exact settled_nestFields input
  | some coercer =>
    exact Fields.settled_of_keys (coercer.keys_coerce _) (settled_nestFields input)

theorem normalizeQuery_normalizeQuery (coercer : Option Coercer) (input : Fields) :
    normalizeQuery coercer (normalizeQuery coercer input) = normalizeQuery coercer input := by
  have hnest := nestFields_of_settled (settled_normalizeQuery coercer input)
  cases coercer with
  | none => exact hnest
  | some coercer =>
    simp only [normalizeQuery] at hnest ⊢
    rw [hnest]
    exact coercer.coerce_coerce _

/-- A query as it was checked has the outcome of the query: nothing is left to nest or to coerce, and
the same problems are found in it. -/
theorem Validator.checkQuery_normalized (validator : Validator) (path method : String) (strict : Bool)
    (exclusions : List String) (input : Fields) :
    validator.checkQuery path method strict exclusions
        (validator.checkQuery path method strict exclusions input).normalized =
      validator.checkQuery path method strict exclusions input := by
  have hquery := normalizeQuery_normalizeQuery (validator.registry.coercer? (.of path method)) input
  simp only [Validator.checkQuery, ApiContract.checkQuery, QueryOutcome.normalized_ofProblems]
  rw [hquery]

end ApiContract
