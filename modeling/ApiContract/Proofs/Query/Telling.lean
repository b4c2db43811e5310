import ApiContract.Proofs.Query.Reporting

/-! # Names that are unknown and names that are missed

Two problems of a query are about names alone: a value that comes under a name when no parameter of it is
left, and a required parameter that no value comes for. The names of a query are those before the brackets
of its keys.

* `topName`: the name under which a query has the value of a key.
* `unknownParameter_mem_queryErrors`: when a name is told to be unknown.
* `missingParameter_mem_queryErrors`: when a name is told to be missing.
* `unknownParameter_mem_of_lone`: the first of these for a query of one key. -/

set_option autoImplicit false

namespace ApiContract

/-! ## Names of a nested query -/

/-- The name under which a query has the value of a key: what stands before the first bracket. -/
def topName (key : String) : String := (nameSteps key).headD ""

theorem topName_of_bare {name : String} (h : Bare name) : topName name = name := by
  rw [topName, nameSteps_of_bare h]
  rfl

theorem nameSteps_ne_nil (key : String) : nameSteps key ≠ [] := by
  rw [nameSteps, Ne, List.map_eq_nil_iff]
  exact List.splitOnP_ne_nil _ _

theorem mem_insertNested {value : Json} {key : String} {target : Fields} {field : String × Json}
    (h : field ∈ insertNested value (nameSteps key) target) :
    field.1 = topName key ∨ field ∈ target := by
  rw [topName]
  cases hsteps : nameSteps key with
  | nil => exact absurd hsteps (nameSteps_ne_nil key)
  | cons step rest =>
    rw [hsteps] at h
    cases rest with
    | nil =>
      rcases Fields.mem_insert h with rfl | hmem
      · exact .inl rfl
      · exact .inr hmem
    | cons next rest =>
      rcases Fields.mem_insert h with rfl | hmem
      · exact .inl rfl
      · exact .inr hmem

theorem exists_of_mem_nestFields {input : Fields} {field : String × Json} (h : field ∈ nestFields input) :
    ∃ given ∈ input, field.1 = topName given.1 := by
  refine List.foldlRecOn (motive := fun nested : Fields =>
    ∀ field ∈ nested, ∃ given ∈ input, field.1 = topName given.1) input _ ?_ ?_ field h
  · intro field hmem
    cases hmem
  · intro target htarget given hgiven field hmem
    rcases mem_insertNested hmem with hname | htail
    · exact ⟨given, hgiven, hname⟩
    · exact htarget field htail

theorem nestFields_singleton (key : String) (value : Json) :
    ∃ nested, nestFields [(key, value)] = [(topName key, nested)] := by
  rw [nestFields, List.foldl_cons, List.foldl_nil, topName]
  cases hsteps : nameSteps key with
  | nil => exact absurd hsteps (nameSteps_ne_nil key)
  | cons step rest =>
    cases rest with
    | nil => exact ⟨value, rfl⟩
    | cons next rest => exact ⟨_, rfl⟩

section

variable {coercer : Option Coercer} {input : Fields}

theorem keys_normalizeQuery (coercer : Option Coercer) (input : Fields) :
    (normalizeQuery coercer input).map Prod.fst = (nestFields input).map Prod.fst := by
  cases coercer with
  | none => rfl
  | some coercer => exact coercer.keys_coerce _

theorem occurrences_normalizeQuery {name : String}
    (h : ∀ field ∈ input, lowerCase (topName field.1) ≠ name) :
    occurrences name (normalizeQuery coercer input) = 0 := by
  rw [occurrences, List.countP_eq_zero]
  intro field hfield
  have hkey : field.1 ∈ (nestFields input).map Prod.fst :=
    keys_normalizeQuery coercer input ▸ List.mem_map_of_mem hfield
  obtain ⟨nested, hnested, hsame⟩ := List.mem_map.1 hkey
  obtain ⟨given, hgiven, hname⟩ := exists_of_mem_nestFields hnested
  rw [← hsame, hname, decide_eq_true_eq]
  exact h given hgiven

theorem normalizeQuery_singleton (coercer : Option Coercer) (key : String) (value : Json) :
    ∃ coerced, normalizeQuery coercer [(key, value)] = [(topName key, coerced)] := by
  obtain ⟨nested, hnested⟩ := nestFields_singleton key value
  have hkeys := keys_normalizeQuery coercer [(key, value)]
  rw [hnested, List.map_singleton, List.map_eq_singleton_iff] at hkeys
  obtain ⟨⟨name, coerced⟩, hfields, rfl⟩ := hkeys
  exact ⟨coerced, hfields⟩

end

/-! ## The two problems -/

/-- The query parameter that a problem is about; a violation of a schema is about none. -/
def ErrorObject.parameter? (problem : ErrorObject) : Option String :=
  problem.source.bind ErrorSource.parameter

theorem parameter?_ofViolation (side : Side) (violation : Violation) :
    (ErrorObject.ofViolation side violation).parameter? = none := by
  unfold ErrorObject.ofViolation
  cases violation.keyword <;> cases violation.schemaPointer <;> simp only <;> split <;> rfl

theorem unknownParameter_injective {name other : String}
    (h : unknownParameter name = unknownParameter other) : name = other := by
  have hsource := congrArg ErrorObject.parameter? h
  exact Option.some.inj hsource

theorem missingParameter_injective {name other : String}
    (h : missingParameter name = missingParameter other) : name = other := by
  have hsource := congrArg ErrorObject.parameter? h
  exact Option.some.inj hsource

theorem unknownParameter_ne_emptyParameter (name other : String) :
    unknownParameter name ≠ emptyParameter other := by
  simp [unknownParameter, emptyParameter, ErrorObject.validation, ErrorObject.plain,
    ErrorObject.withParameter]

theorem unknownParameter_ne_missingParameter (name other : String) :
    unknownParameter name ≠ missingParameter other := by
  simp [unknownParameter, missingParameter, ErrorObject.validation, ErrorObject.plain,
    ErrorObject.withParameter]

theorem missingParameter_ne_emptyParameter (name other : String) :
    missingParameter name ≠ emptyParameter other := by
  simp [missingParameter, emptyParameter, ErrorObject.validation, ErrorObject.plain,
    ErrorObject.withParameter]

section

variable {strict : Bool} {exclusions : List String} {parameters : List QueryParameter}
  {before fields : Fields} {key name : String} {value : Json}

/-- A problem of a value is that of a name without a taker, or is about the value. -/
theorem mem_fieldErrors {problem : ErrorObject}
    (h : problem ∈ fieldErrors strict exclusions parameters before key value) :
    (problem = unknownParameter key ∧ strict = true ∧ isExcluded exclusions key = false ∧
        taker? parameters before key = none) ∨
      problem = emptyParameter key ∨ problem.parameter? = none := by
  unfold fieldErrors at h
  split at h
  · split at h
    · exact .inr (.inl (List.mem_singleton.1 h))
    · obtain ⟨violation, -, rfl⟩ := List.mem_map.1 h
      exact .inr (.inr (parameter?_ofViolation _ _))
  · rename_i htaker
    split at h
    · rename_i hstrict
      rw [Bool.and_eq_true, Bool.not_eq_true'] at hstrict
      exact .inl ⟨List.mem_singleton.1 h, hstrict.1, hstrict.2, htaker⟩
    · cases h

theorem missingParameter_not_mem_fieldErrors :
    missingParameter name ∉ fieldErrors strict exclusions parameters before key value := by
  intro h
  rcases mem_fieldErrors h with ⟨hunknown, -⟩ | hempty | hnone
  · exact unknownParameter_ne_missingParameter _ _ hunknown.symm
  · exact missingParameter_ne_emptyParameter _ _ hempty
  · cases hnone

/-- A name is told to be unknown if checking is strict, the name is not excluded and a value of it comes
when all parameters of the name have taken one. -/
theorem unknownParameter_mem_queryErrors :
    unknownParameter key ∈ queryErrors strict exclusions parameters fields ↔
      strict = true ∧ isExcluded exclusions key = false ∧
        ∃ before value after, fields = before ++ (key, value) :: after ∧
          taker? parameters before key = none := by
  rw [queryErrors, List.mem_append, List.mem_flatMap]
  constructor
  · rintro (⟨⟨before, field, value⟩, hentry, hmem⟩ | hmem)
    · rcases mem_fieldErrors hmem with ⟨hsame, hstrict, hexcluded, htaker⟩ | hempty | hnone
      · cases unknownParameter_injective hsame
        obtain ⟨after, hsplit⟩ := mem_withBefore.1 hentry
        exact ⟨hstrict, hexcluded, before, value, after, hsplit, htaker⟩
      · exact absurd hempty (unknownParameter_ne_emptyParameter _ _)
      · cases hnone
    · obtain ⟨parameter, -, hsame⟩ := List.mem_map.1 hmem
      exact absurd hsame.symm (unknownParameter_ne_missingParameter _ _)
  · rintro ⟨hstrict, hexcluded, before, value, after, hsplit, htaker⟩
    refine .inl ⟨(before, key, value), mem_withBefore.2 ⟨after, hsplit⟩, ?_⟩
    simp only [fieldErrors, htaker, hstrict, hexcluded]
    exact List.mem_singleton_self _

/-- A name is told to be missing if a required parameter of it takes no value. -/
theorem missingParameter_mem_queryErrors :
    missingParameter name ∈ queryErrors strict exclusions parameters fields ↔
      ∃ parameter ∈ untaken parameters fields, parameter.required = true ∧ parameter.name = name := by
  rw [queryErrors, List.mem_append, List.mem_flatMap, List.mem_map]
  constructor
  · rintro (⟨entry, -, hmem⟩ | ⟨parameter, hmem, hsame⟩)
    · exact absurd hmem missingParameter_not_mem_fieldErrors
    · obtain ⟨huntaken, hrequired⟩ := List.mem_filter.1 hmem
      exact ⟨parameter, huntaken, hrequired, missingParameter_injective hsame⟩
  · rintro ⟨parameter, huntaken, hrequired, rfl⟩
    exact .inr ⟨parameter, List.mem_filter.2 ⟨huntaken, hrequired⟩, rfl⟩

/-- A parameter whose name does not come up takes no value. -/
theorem mem_untaken_of_occurrences {parameter : QueryParameter} (hmem : parameter ∈ parameters)
    (h : occurrences parameter.name fields = 0) : parameter ∈ untaken parameters fields := by
  obtain ⟨before, after, rfl⟩ := List.append_of_mem hmem
  refine List.mem_map.2 ⟨(before, parameter), List.mem_filter.2 ⟨mem_withBefore.2 ⟨after, rfl⟩, ?_⟩, rfl⟩
  rw [isUntaken, h]
  exact decide_eq_true (Nat.zero_le _)

theorem mem_of_mem_untaken {parameter : QueryParameter} (h : parameter ∈ untaken parameters fields) :
    parameter ∈ parameters := by
  obtain ⟨⟨before, found⟩, hentry, rfl⟩ := List.mem_map.1 h
  obtain ⟨after, rfl⟩ := mem_withBefore.1 (List.mem_filter.1 hentry).1
  exact List.mem_append_right _ List.mem_cons_self

/-- The first value of a name is taken exactly if there is a parameter of the name. -/
theorem taker?_nil_eq_none_iff :
    taker? parameters [] key = none ↔ ∀ parameter ∈ parameters, parameter.name ≠ lowerCase key := by
  have hnone : taker? parameters [] key = none ↔ named (lowerCase key) parameters = [] := by
    have hzero : occurrences (lowerCase key) [] = 0 := rfl
    rw [taker?, List.getElem?_eq_none_iff, hzero, Nat.le_zero, List.length_eq_zero_iff]
  rw [hnone, named, List.filter_eq_nil_iff]
  simp only [decide_eq_true_eq]

/-- A lone key of a query is told to be unknown, under its name, if checking is strict, the name is not
excluded and no parameter has it. -/
theorem unknownParameter_mem_of_lone {coercer : Option Coercer} :
    unknownParameter name ∈
        queryErrors strict exclusions parameters (normalizeQuery coercer [(key, value)]) ↔
      strict = true ∧ isExcluded exclusions name = false ∧ name = topName key ∧
        ∀ parameter ∈ parameters, parameter.name ≠ lowerCase name := by
  obtain ⟨coerced, hfields⟩ := normalizeQuery_singleton coercer key value
  rw [hfields, unknownParameter_mem_queryErrors]
  refine and_congr_right fun _ => and_congr_right fun _ => ⟨?_, ?_⟩
  · rintro ⟨before, given, after, hsplit, htaker⟩
    cases before with
    | nil =>
      cases hsplit
      exact ⟨rfl, taker?_nil_eq_none_iff.1 htaker⟩
    | cons first before => simp at hsplit
  · rintro ⟨rfl, hother⟩
    exact ⟨[], coerced, [], rfl, taker?_nil_eq_none_iff.2 hother⟩

end

end ApiContract
