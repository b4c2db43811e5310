import ApiContract.Validator
import ApiContract.Proofs.Schema.Guarding
import ApiContract.Proofs.Schema.Passing

/-! # Which parameter takes which value

The values of a query are taken by the parameters of their names, in the order of both. A value that
comes when every parameter of its name has taken one is looked at by none.

* `taker?`: the parameter that takes a value, found without going through the query.
* `QueryParameter.Admits`: what a parameter asks of the value it takes.
* `checkFields_eq_nil_iff`: a query has no problems exactly if every taker admits its value, strict
  checking finds no value without one, and required parameters take one.
* `Validator.checkQuery_silent`: the same of the queries of a route, and which declared values are
  admitted when there are no problems. -/

set_option autoImplicit false

namespace ApiContract

/-! ## Single values -/

/-- What a parameter asks of the value it takes. -/
def QueryParameter.Admits (parameter : QueryParameter) (value : Json) : Prop :=
  (parameter.allowEmptyValue = true ∨ isBlankValue value = false) ∧
    parameter.schema.accepts value = true

theorem schemaErrors_eq_nil_iff {side : Side} {schema : CompiledSchema} {inst : Json} :
    schemaErrors side schema inst = [] ↔ schema.accepts inst = true := by
  rw [schemaErrors, CompiledSchema.accepts]
  cases schema.violations inst with
  | nil => simp
  | cons violation rest => simp [ErrorObject.ofViolations]

theorem valueErrors_eq_nil_iff {parameter : QueryParameter} {name : String} {value : Json} :
    valueErrors parameter name value = [] ↔ parameter.Admits value := by
  rw [valueErrors, QueryParameter.Admits]
  by_cases hempty : (!parameter.allowEmptyValue && isBlankValue value) = true
  · rw [if_pos hempty]
    rw [Bool.and_eq_true, Bool.not_eq_true'] at hempty
    simp [hempty.1, hempty.2]
  · rw [if_neg hempty, schemaErrors_eq_nil_iff]
    have hfree : parameter.allowEmptyValue = true ∨ isBlankValue value = false := by
      cases hallow : parameter.allowEmptyValue with
      | true => exact .inl rfl
      | false => simpa [hallow] using hempty
    simp [hfree]

/-! ## Takers -/

/-- The parameters of a name. -/
def named (name : String) (parameters : List QueryParameter) : List QueryParameter :=
  parameters.filter fun parameter => parameter.name = name

/-- How many fields have a name, without regard to case. -/
def occurrences (name : String) (fields : Fields) : Nat :=
  fields.countP fun field => lowerCase field.1 = name

/-- The parameter that takes the value of a key behind some fields. -/
def taker? (parameters : List QueryParameter) (before : Fields) (key : String) :
    Option QueryParameter :=
  (named (lowerCase key) parameters)[occurrences (lowerCase key) before]?

theorem takeParameter?_eq_none {name : String} {parameters : List QueryParameter}
    (h : takeParameter? name parameters = none) : named name parameters = [] := by
  induction parameters with
  | nil => rfl
  | cons parameter rest ih =>
    rw [takeParameter?] at h
    by_cases hname : parameter.name = name
    · rw [if_pos hname] at h
      cases h
    · rw [if_neg hname, Option.map_eq_none_iff] at h
      rw [named, List.filter_cons_of_neg (by simpa using hname)]
      exact ih h

theorem takeParameter?_eq_some {name : String} {parameters others : List QueryParameter}
    {parameter : QueryParameter} (h : takeParameter? name parameters = some (parameter, others)) :
    named name parameters = parameter :: named name others ∧
      ∀ other, other ≠ name → named other parameters = named other others := by
  induction parameters generalizing others with
  | nil => cases h
  | cons first rest ih =>
    rw [takeParameter?] at h
    by_cases hname : first.name = name
    · rw [if_pos hname] at h
      cases h
      refine ⟨List.filter_cons_of_pos (by simpa using hname), fun other hother => ?_⟩
      exact List.filter_cons_of_neg (by simpa [hname] using Ne.symm hother)
    · rw [if_neg hname, Option.map_eq_some_iff] at h
      obtain ⟨⟨found, left⟩, hfound, heq⟩ := h
      cases heq
      obtain ⟨hsame, hothers⟩ := ih hfound
      refine ⟨?_, fun other hother => ?_⟩
      · rw [named, List.filter_cons_of_neg (by simpa using hname), named,
          List.filter_cons_of_neg (by simpa using hname)]
        exact hsame
      · by_cases hfirst : first.name = other
        · rw [named, List.filter_cons_of_pos (by simpa using hfirst), named,
            List.filter_cons_of_pos (by simpa using hfirst)]
          exact congrArg _ (hothers other hother)
        · rw [named, List.filter_cons_of_neg (by simpa using hfirst), named,
            List.filter_cons_of_neg (by simpa using hfirst)]
          exact hothers other hother

theorem occurrences_cons_same {name key : String} {value : Json} {rest : Fields}
    (h : lowerCase key = name) : occurrences name ((key, value) :: rest) = occurrences name rest + 1 := by
  rw [occurrences, List.countP_cons_of_pos (by simpa using h), occurrences]

theorem occurrences_cons_other {name key : String} {value : Json} {rest : Fields}
    (h : lowerCase key ≠ name) : occurrences name ((key, value) :: rest) = occurrences name rest := by
  rw [occurrences, List.countP_cons_of_neg (by simpa using h), occurrences]

/-- A field that takes a parameter leaves the others to the fields behind it. -/
theorem taker?_cons_of_taken {parameters others : List QueryParameter} {parameter : QueryParameter}
    {key : String} (h : takeParameter? (lowerCase key) parameters = some (parameter, others))
    (value : Json) (before : Fields) (other : String) :
    taker? parameters ((key, value) :: before) other = taker? others before other := by
  obtain ⟨hsame, hothers⟩ := takeParameter?_eq_some h
  unfold taker?
  by_cases hname : lowerCase key = lowerCase other
  · rw [occurrences_cons_same hname, ← hname, hsame, List.getElem?_cons_succ]
  · rw [occurrences_cons_other hname, hothers _ (Ne.symm hname)]

theorem taker?_cons_of_none {parameters : List QueryParameter} {key : String}
    (h : takeParameter? (lowerCase key) parameters = none) (value : Json) (before : Fields)
    (other : String) :
    taker? parameters ((key, value) :: before) other = taker? parameters before other := by
  unfold taker?
  by_cases hname : lowerCase key = lowerCase other
  · rw [← hname, takeParameter?_eq_none h]
    rfl
  · rw [occurrences_cons_other hname]

/-! ## Whole queries -/

def isExcluded (exclusions : List String) (key : String) : Bool :=
  exclusions.any fun excluded => lowerCase excluded == lowerCase key

/-- What is asked of a field behind others: its taker admits the value; without a taker, strict
checking wants the name to be excluded. -/
def FieldHolds (strict : Bool) (exclusions : List String) (parameters : List QueryParameter)
    (before : Fields) (key : String) (value : Json) : Prop :=
  match taker? parameters before key with
  | some parameter => parameter.Admits value
  | none => strict = true → isExcluded exclusions key = true

/-- Every required parameter takes a value. -/
def RequiredTaken (parameters : List QueryParameter) (fields : Fields) : Prop :=
  ∀ name i parameter, (named name parameters)[i]? = some parameter → parameter.required = true →
    i < occurrences name fields

section

variable {strict : Bool} {exclusions : List String} {parameters : List QueryParameter}

theorem requiredTaken_nil : RequiredTaken parameters [] ↔
    parameters.filter (·.required) = [] := by
  rw [List.filter_eq_nil_iff]
  constructor
  · intro h parameter hmem hrequired
    have hnamed : parameter ∈ named parameter.name parameters :=
      List.mem_filter.2 ⟨hmem, by simp⟩
    obtain ⟨i, hi⟩ := List.mem_iff_getElem?.1 hnamed
    exact Nat.not_lt_zero i (h _ i parameter hi hrequired)
  · intro h name i parameter hi hrequired
    exact absurd hrequired (h parameter (List.mem_filter.1 (List.mem_of_getElem? hi)).1)

theorem requiredTaken_cons_of_taken {others : List QueryParameter} {parameter : QueryParameter}
    {key : String} {value : Json} {rest : Fields}
    (h : takeParameter? (lowerCase key) parameters = some (parameter, others)) :
    RequiredTaken parameters ((key, value) :: rest) ↔ RequiredTaken others rest := by
  obtain ⟨hsame, hothers⟩ := takeParameter?_eq_some h
  refine forall_congr' fun name => ?_
  by_cases hname : lowerCase key = name
  · subst hname
    rw [occurrences_cons_same rfl, hsame]
    constructor
    · intro hall i found hfound hrequired
      have hlt := hall (i + 1) found (by rw [List.getElem?_cons_succ]; exact hfound) hrequired
      omega
    · intro hall i found hfound hrequired
      cases i with
      | zero => exact Nat.succ_pos _
      | succ n =>
        rw [List.getElem?_cons_succ] at hfound
        have hlt := hall n found hfound hrequired
        omega
  · rw [occurrences_cons_other hname, hothers _ (Ne.symm hname)]

theorem requiredTaken_cons_of_none {key : String} {value : Json} {rest : Fields}
    (h : takeParameter? (lowerCase key) parameters = none) :
    RequiredTaken parameters ((key, value) :: rest) ↔ RequiredTaken parameters rest := by
  refine forall_congr' fun name => ?_
  by_cases hname : lowerCase key = name
  · subst hname
    rw [takeParameter?_eq_none h]
    simp
  · rw [occurrences_cons_other hname]

theorem forall_split_cons {p : Fields → String → Json → Prop} {key : String} {value : Json}
    {rest : Fields} :
    (∀ before k v after, (key, value) :: rest = before ++ (k, v) :: after → p before k v) ↔
      p [] key value ∧ ∀ before k v after, rest = before ++ (k, v) :: after →
        p ((key, value) :: before) k v := by
  constructor
  · intro h
    refine ⟨h [] key value rest rfl, fun before k v after hrest => ?_⟩
    exact h ((key, value) :: before) k v after (by rw [hrest]; rfl)
  · rintro ⟨hfirst, hrest⟩ before k v after hsplit
    cases before with
    | nil =>
      cases hsplit
      exact hfirst
    | cons field before =>
      rw [List.cons_append, List.cons.injEq] at hsplit
      obtain ⟨rfl, hsplit⟩ := hsplit
      exact hrest before k v after hsplit

/-- The problems of a query are none exactly if every field holds behind those before it, and every
required parameter takes a value. -/
theorem checkFields_eq_nil_iff {fields : Fields} :
    checkFields strict exclusions parameters fields = [] ↔
      (∀ before key value after, fields = before ++ (key, value) :: after →
        FieldHolds strict exclusions parameters before key value) ∧
      RequiredTaken parameters fields := by
  induction fields generalizing parameters with
  | nil =>
    rw [checkFields, List.map_eq_nil_iff, ← requiredTaken_nil]
    simp
  | cons field rest ih =>
    obtain ⟨key, value⟩ := field
    rw [checkFields, forall_split_cons]
    cases htake : takeParameter? (lowerCase key) parameters with
    | some found =>
      obtain ⟨parameter, others⟩ := found
      have hfirst : FieldHolds strict exclusions parameters [] key value ↔ parameter.Admits value := by
        rw [FieldHolds, taker?, (takeParameter?_eq_some htake).1]
        rfl
      simp only
      rw [List.append_eq_nil_iff, valueErrors_eq_nil_iff, ih, hfirst,
        requiredTaken_cons_of_taken htake, and_assoc]
      simp only [FieldHolds, taker?_cons_of_taken htake]
    | none =>
      have hfirst : FieldHolds strict exclusions parameters [] key value ↔
          (strict = true → isExcluded exclusions key = true) := by
        rw [FieldHolds, taker?, takeParameter?_eq_none htake]
        rfl
      have hstrict : (if (strict && !isExcluded exclusions key) = true then [unknownParameter key]
          else []) = [] ↔ (strict = true → isExcluded exclusions key = true) := by
        cases strict <;> cases isExcluded exclusions key <;> simp
      simp only
      rw [List.append_eq_nil_iff, ih, hfirst, requiredTaken_cons_of_none htake, and_assoc]
      simp only [FieldHolds, taker?_cons_of_none htake]
      exact and_congr_left' hstrict

end

/-! ## Queries of a route -/

/-- Whether a parameter of its name is left for a key behind some fields. -/
def HasTaker (parameters : List QueryParameter) (before : Fields) (key : String) : Prop :=
  occurrences (lowerCase key) before < (named (lowerCase key) parameters).length

/-- Nothing is reported of a query of a route exactly if every field holds and required parameters take a
value. The value of a declared name is then admitted, if a parameter of the name was left for it or a
value without one would be a problem. -/
theorem Validator.checkQuery_silent (validator : Validator) (path method : String) (strict : Bool)
    (exclusions : List String) (input : Fields) :
    ((validator.checkQuery path method strict exclusions input).errors = none ↔
      (∀ before key value after,
        (validator.checkQuery path method strict exclusions input).normalized =
            before ++ (key, value) :: after →
          FieldHolds strict exclusions (validator.registry.parameters (.of path method)) before key
            value) ∧
      RequiredTaken (validator.registry.parameters (.of path method))
        (validator.checkQuery path method strict exclusions input).normalized) ∧
    ((validator.checkQuery path method strict exclusions input).errors = none →
      ∀ before key value after,
        (validator.checkQuery path method strict exclusions input).normalized =
            before ++ (key, value) :: after →
        HasTaker (validator.registry.parameters (.of path method)) before key ∨
            (strict = true ∧ isExcluded exclusions key = false) →
          ∃ parameter ∈ validator.registry.parameters (.of path method),
            parameter.name = lowerCase key ∧ parameter.Admits value) := by
  have hsilent : (validator.checkQuery path method strict exclusions input).errors = none ↔ _ :=
    reported_eq_none_iff.trans checkFields_eq_nil_iff
  refine ⟨hsilent, fun herrors before key value after hsplit htaken => ?_⟩
  have hholds := (hsilent.1 herrors).1 before key value after hsplit
  unfold FieldHolds at hholds
  cases htaker : taker? (validator.registry.parameters (.of path method)) before key with
  | some parameter =>
    rw [htaker] at hholds
    obtain ⟨hmem, hname⟩ := List.mem_filter.1 (List.mem_of_getElem? htaker)
    exact ⟨parameter, hmem, by simpa using hname, hholds⟩
  | none =>
    rw [htaker] at hholds
    rcases htaken with hleft | ⟨hstrict, hincluded⟩
    · exact absurd hleft (Nat.not_lt.2 (List.getElem?_eq_none_iff.1 htaker))
    · rw [hholds hstrict] at hincluded
      cases hincluded

/-- A parameter that wants a value, which must not be empty. -/
def limitParameter : QueryParameter :=
  ⟨"limit", false, false, ⟨"#/paths/a/get/parameters/limit", .object [], false⟩⟩

/-- A route with this one parameter. -/
def limitValidator : Validator :=
  ⟨[(.of "/a" "get", ⟨"/a", none, [], [limitParameter], none⟩)], ⟨false, false, .disabled, true⟩⟩

theorem limitValidator_parameters :
    limitValidator.registry.parameters (.of "/a" "get") = [limitParameter] := by
  simp [limitValidator, Registry.parameters, Registry.get?]

theorem limitValidator_normalized :
    (limitValidator.checkQuery "/a" "get" false []
      [("Limit", .string "5"), ("limit", .string "")]).normalized =
        [("Limit", .string "5"), ("limit", .string "")] := by
  have hcoercer : limitValidator.registry.coercer? (.of "/a" "get") = none := by
    simp [limitValidator, Registry.coercer?, Registry.get?]
  show normalizeQuery (limitValidator.registry.coercer? (.of "/a" "get"))
    [("Limit", .string "5"), ("limit", .string "")] = _
  rw [hcoercer]
  rfl

theorem limitParameter_admits : limitParameter.Admits (.string "5") := by
  refine ⟨.inr (by decide +kernel), ?_⟩
  rw [CompiledSchema.accepts_iff]
  refine ⟨?_, fun h => by cases h⟩
  refine (Evaluation.passes_keywords (by simp)).2 fun entry hentry => ?_
  cases hentry

/-- The second of two names that differ in case only is not looked at: its empty value is let pass. -/
theorem limitValidator_ignores_second :
    (limitValidator.checkQuery "/a" "get" false []
      [("Limit", .string "5"), ("limit", .string "")]).errors = none ∧
    ("limit", Json.string "") ∈ (limitValidator.checkQuery "/a" "get" false []
      [("Limit", .string "5"), ("limit", .string "")]).normalized ∧
    (∃ parameter ∈ limitValidator.registry.parameters (.of "/a" "get"),
      parameter.name = lowerCase "limit") ∧
    ¬ ∃ parameter ∈ limitValidator.registry.parameters (.of "/a" "get"),
      parameter.name = lowerCase "limit" ∧ parameter.Admits (.string "") := by
  have hname : lowerCase "limit" = "limit" := by decide +kernel
  have htake : takeParameter? (lowerCase "Limit") [limitParameter] = some (limitParameter, []) := by
    have hupper : lowerCase "Limit" = "limit" := by decide +kernel
    rw [hupper]
    rfl
  rw [limitValidator_normalized, limitValidator_parameters, hname]
  refine ⟨?_, by simp, ⟨limitParameter, by simp, rfl⟩, ?_⟩
  · refine reported_eq_none_iff.2 ?_
    show checkFields false [] (limitValidator.registry.parameters (.of "/a" "get"))
      (limitValidator.checkQuery "/a" "get" false []
        [("Limit", .string "5"), ("limit", .string "")]).normalized = []
    rw [limitValidator_normalized, limitValidator_parameters, checkFields]
    simp only [htake]
    rw [valueErrors_eq_nil_iff.2 limitParameter_admits]
    rfl
  · rintro ⟨parameter, hmem, -, hadmits⟩
    rw [List.mem_singleton.1 hmem] at hadmits
    have hblank : isBlankValue (.string "") = true := by decide +kernel
    rcases hadmits.1 with hallow | hfull
    · cases hallow
    · rw [hblank] at hfull
      cases hfull

end ApiContract
