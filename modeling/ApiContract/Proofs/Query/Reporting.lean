import ApiContract.Proofs.Query.Settled
import ApiContract.Proofs.Query.Taking
import Mathlib.Data.List.Infix

/-! # The problems of a query, in closed form

The check goes through a query and strikes out the parameters that have taken a value. What it reports
can be said without the striking: which parameter takes a value, and which parameters take none, is
settled by counting the names before them.

* `withBefore`: the members of a list with those before them.
* `fieldErrors`: the problems of one value, by the parameter that takes it.
* `untaken`: the parameters that take no value.
* `checkFields_eq`: the problems are those of the values in order, then those of untaken parameters.
* `checkQuery_errors`: the same of a query as it is checked, its names in ascending order. -/

set_option autoImplicit false

namespace ApiContract

/-! ## Members and what stands before them -/

section

variable {α : Type}

/-- The members of a list, each with those before it. -/
def withBefore (members : List α) : List (List α × α) := members.inits.zip members

@[simp] theorem withBefore_nil : withBefore ([] : List α) = [] := rfl

@[simp] theorem withBefore_cons (first : α) (rest : List α) :
    withBefore (first :: rest) =
      ([], first) :: (withBefore rest).map fun entry => (first :: entry.1, entry.2) := by
  rw [withBefore, List.inits_cons, List.zip_cons_cons, List.zip_map_left]
  rfl

theorem withBefore_append (before after : List α) :
    withBefore (before ++ after) =
      withBefore before ++ (withBefore after).map fun entry => (before ++ entry.1, entry.2) := by
  induction before with
  | nil => simp
  | cons first rest ih => simp [ih, Function.comp_def]

theorem mem_withBefore {members before : List α} {member : α} :
    (before, member) ∈ withBefore members ↔ ∃ after, members = before ++ member :: after := by
  induction members generalizing before with
  | nil => simp
  | cons first rest ih =>
    cases before with
    | nil => simp [eq_comm]
    | cons head before =>
      simp only [withBefore_cons, List.mem_cons, Prod.mk.injEq, reduceCtorEq, false_and, false_or,
        List.mem_map, List.cons_append, List.cons.injEq]
      constructor
      · rintro ⟨⟨given, other⟩, hmem, ⟨rfl, rfl⟩, rfl⟩
        obtain ⟨after, hafter⟩ := ih.1 hmem
        exact ⟨after, rfl, hafter⟩
      · rintro ⟨after, rfl, hafter⟩
        exact ⟨(before, member), ih.2 ⟨after, hafter⟩, ⟨rfl, rfl⟩, rfl⟩

end

/-! ## One value -/

/-- The problems of a value of a query behind other fields. A value that a parameter takes is looked at
by it: a blank one is a single problem where none is allowed, and any other has the problems of its
violations. A value that no parameter takes is a problem of strict checking, unless its name is
excluded. -/
def fieldErrors (strict : Bool) (exclusions : List String) (parameters : List QueryParameter)
    (before : Fields) (key : String) (value : Json) : List ErrorObject :=
  match taker? parameters before key with
  | some parameter =>
    if !parameter.allowEmptyValue && isBlankValue value then [emptyParameter key]
    else (parameter.schema.violations value).map (ErrorObject.ofViolation .request)
  | none => if strict && !isExcluded exclusions key then [unknownParameter key] else []

theorem schemaErrors_eq (side : Side) (schema : CompiledSchema) (inst : Json) :
    schemaErrors side schema inst = (schema.violations inst).map (ErrorObject.ofViolation side) := by
  rw [schemaErrors]
  cases schema.violations inst <;> rfl

section

variable {strict : Bool} {exclusions : List String} {parameters others : List QueryParameter}
  {parameter : QueryParameter} {key : String} {value : Json} {rest : Fields}

theorem fieldErrors_of_taken (h : takeParameter? (lowerCase key) parameters = some (parameter, others)) :
    fieldErrors strict exclusions parameters [] key value = valueErrors parameter key value := by
  have htaker : taker? parameters [] key = some parameter := by
    rw [taker?, (takeParameter?_eq_some h).1]
    rfl
  simp only [fieldErrors, htaker]
  rw [valueErrors, schemaErrors_eq]

theorem fieldErrors_of_none (h : takeParameter? (lowerCase key) parameters = none) :
    fieldErrors strict exclusions parameters [] key value =
      if strict && !isExcluded exclusions key then [unknownParameter key] else [] := by
  have htaker : taker? parameters [] key = none := by
    rw [taker?, takeParameter?_eq_none h]
    rfl
  simp only [fieldErrors, htaker]

theorem fieldErrors_cons_of_taken
    (h : takeParameter? (lowerCase key) parameters = some (parameter, others)) (before : Fields)
    (other : String) (given : Json) :
    fieldErrors strict exclusions parameters ((key, value) :: before) other given =
      fieldErrors strict exclusions others before other given := by
  rw [fieldErrors, taker?_cons_of_taken h, fieldErrors]

theorem fieldErrors_cons_of_none (h : takeParameter? (lowerCase key) parameters = none)
    (before : Fields) (other : String) (given : Json) :
    fieldErrors strict exclusions parameters ((key, value) :: before) other given =
      fieldErrors strict exclusions parameters before other given := by
  rw [fieldErrors, taker?_cons_of_none h, fieldErrors]

end

/-! ## Parameters without a value -/

/-- No value is left for a parameter behind others: those of its name before it take all there are. -/
def isUntaken (fields : Fields) (before : List QueryParameter) (parameter : QueryParameter) : Bool :=
  occurrences parameter.name fields ≤ (named parameter.name before).length

/-- The parameters that take no value, in the order of their declaration. -/
def untaken (parameters : List QueryParameter) (fields : Fields) : List QueryParameter :=
  ((withBefore parameters).filter fun entry => isUntaken fields entry.1 entry.2).map (·.2)

theorem named_append (name : String) (before after : List QueryParameter) :
    named name (before ++ after) = named name before ++ named name after :=
  List.filter_append ..

/-- The first parameter of a name stands between parameters of which those before it have other
names. -/
theorem takeParameter?_split {name : String} {parameters others : List QueryParameter}
    {parameter : QueryParameter} (h : takeParameter? name parameters = some (parameter, others)) :
    ∃ before after, parameters = before ++ parameter :: after ∧ others = before ++ after ∧
      parameter.name = name ∧ ∀ other ∈ before, other.name ≠ name := by
  induction parameters generalizing others with
  | nil => cases h
  | cons first rest ih =>
    rw [takeParameter?] at h
    by_cases hname : first.name = name
    · rw [if_pos hname] at h
      cases h
      exact ⟨[], rest, rfl, rfl, hname, fun other hother => by cases hother⟩
    · rw [if_neg hname, Option.map_eq_some_iff] at h
      obtain ⟨⟨found, left⟩, hfound, heq⟩ := h
      cases heq
      obtain ⟨before, after, rfl, rfl, hsame, hbefore⟩ := ih hfound
      refine ⟨first :: before, after, rfl, rfl, hsame, fun other hother => ?_⟩
      rcases List.mem_cons.1 hother with rfl | hmem
      · exact hname
      · exact hbefore other hmem

section

variable {parameters others : List QueryParameter} {parameter : QueryParameter} {key : String}
  {value : Json} {fields rest : Fields}

theorem untaken_nil : untaken parameters [] = parameters := by
  have hall : ∀ entry ∈ withBefore parameters, isUntaken [] entry.1 entry.2 = true := by
    intro entry _
    simp [isUntaken, occurrences]
  rw [untaken, List.filter_eq_self.2 hall, withBefore, List.map_snd_zip]
  simp

theorem untaken_congr {given : Fields}
    (h : ∀ parameter ∈ parameters,
      occurrences parameter.name given = occurrences parameter.name fields) :
    untaken parameters given = untaken parameters fields := by
  refine congrArg (List.map Prod.snd) (List.filter_congr fun entry hentry => ?_)
  obtain ⟨after, hsplit⟩ := mem_withBefore.1 hentry
  rw [isUntaken, h entry.2 (by simp [hsplit]), isUntaken]

theorem untaken_append (before after : List QueryParameter) : untaken (before ++ after) fields =
    untaken before fields ++
      ((withBefore after).filter fun entry => isUntaken fields (before ++ entry.1) entry.2).map
        (·.2) := by
  rw [untaken, withBefore_append, List.filter_append, List.map_append, List.filter_map, List.map_map]
  rfl

/-- The parameter that takes the first value and the value can both be left out of the counting. -/
theorem untaken_cons_of_taken
    (h : takeParameter? (lowerCase key) parameters = some (parameter, others)) :
    untaken parameters ((key, value) :: rest) = untaken others rest := by
  obtain ⟨before, after, rfl, rfl, hname, hbefore⟩ := takeParameter?_split h
  have hfirst : untaken before ((key, value) :: rest) = untaken before rest :=
    untaken_congr fun other hother => occurrences_cons_other (Ne.symm (hbefore other hother))
  have htaken : isUntaken ((key, value) :: rest) before parameter = false := by
    have hnone : named (lowerCase key) before = [] :=
      List.filter_eq_nil_iff.2 fun other hother => by simpa using hbefore other hother
    rw [isUntaken, hname, hnone, occurrences_cons_same rfl]
    simp
  have hshift : ∀ (between : List QueryParameter) (other : QueryParameter),
      isUntaken ((key, value) :: rest) (before ++ parameter :: between) other =
        isUntaken rest (before ++ between) other := by
    intro between other
    rw [isUntaken, isUntaken, named_append, named_append]
    by_cases hother : other.name = lowerCase key
    · rw [hother, occurrences_cons_same rfl, named, named, named,
        List.filter_cons_of_pos (by simpa using hname)]
      simp only [List.length_append, List.length_cons]
      congr 1
      exact propext (by omega)
    · rw [occurrences_cons_other (Ne.symm hother), named, named, named,
        List.filter_cons_of_neg (by simpa [hname] using Ne.symm hother)]
  rw [untaken_append, untaken_append, hfirst, withBefore_cons, List.filter_cons_of_neg (by simp [htaken]),
    List.filter_map, List.map_map]
  refine congrArg _ (congrArg _ (List.filter_congr fun entry _ => ?_))
  exact hshift entry.1 entry.2

theorem untaken_cons_of_none (h : takeParameter? (lowerCase key) parameters = none) :
    untaken parameters ((key, value) :: rest) = untaken parameters rest := by
  refine untaken_congr fun parameter hmem => occurrences_cons_other fun hname => ?_
  have hnamed : parameter ∈ named (lowerCase key) parameters :=
    List.mem_filter.2 ⟨hmem, by simpa using hname.symm⟩
  rw [takeParameter?_eq_none h] at hnamed
  cases hnamed

end

/-! ## Whole queries -/

/-- The problems of a query: those of its values, each by the parameter that takes it, and then that of
every required parameter that takes none. -/
def queryErrors (strict : Bool) (exclusions : List String) (parameters : List QueryParameter)
    (fields : Fields) : List ErrorObject :=
  ((withBefore fields).flatMap fun entry =>
      fieldErrors strict exclusions parameters entry.1 entry.2.1 entry.2.2) ++
    ((untaken parameters fields).filter (·.required)).map fun parameter =>
      missingParameter parameter.name

/-- Striking out the parameters that have taken a value comes to counting the names. -/
theorem checkFields_eq (strict : Bool) (exclusions : List String) (parameters : List QueryParameter)
    (fields : Fields) :
    checkFields strict exclusions parameters fields =
      queryErrors strict exclusions parameters fields := by
  induction fields generalizing parameters with
  | nil => rw [checkFields, queryErrors, untaken_nil, withBefore_nil, List.flatMap_nil, List.nil_append]
  | cons field rest ih =>
    obtain ⟨key, value⟩ := field
    rw [checkFields, queryErrors, withBefore_cons, List.flatMap_cons, List.flatMap_map, List.append_assoc]
    cases htake : takeParameter? (lowerCase key) parameters with
    | some found =>
      obtain ⟨parameter, others⟩ := found
      simp only [fieldErrors_cons_of_taken htake]
      rw [ih, fieldErrors_of_taken htake, untaken_cons_of_taken htake]
      rfl
    | none =>
      simp only [fieldErrors_cons_of_none htake]
      rw [ih, fieldErrors_of_none htake, untaken_cons_of_none htake]
      rfl

/-- The outcome of a query: its names come in ascending order, and the problems are those in closed
form, going over the names and then over the parameters left. Nothing is reported exactly if no value has a
problem and no required parameter is left. -/
theorem checkQuery_errors (parameters : List QueryParameter) (coercer : Option Coercer) (strict : Bool)
    (exclusions : List String) (input : Fields) :
    (checkQuery parameters coercer strict exclusions input).normalized.Ordered ∧
    (∀ fields, checkFields strict exclusions parameters fields =
      queryErrors strict exclusions parameters fields) ∧
    (checkQuery parameters coercer strict exclusions input).errors =
      reported (queryErrors strict exclusions parameters
        (checkQuery parameters coercer strict exclusions input).normalized) ∧
    ((checkQuery parameters coercer strict exclusions input).errors = none ↔
      (∀ before key value after,
        (checkQuery parameters coercer strict exclusions input).normalized =
            before ++ (key, value) :: after →
          fieldErrors strict exclusions parameters before key value = []) ∧
      ∀ parameter ∈ untaken parameters
          (checkQuery parameters coercer strict exclusions input).normalized,
        parameter.required = false) := by
  have herrors : (checkQuery parameters coercer strict exclusions input).errors =
      reported (queryErrors strict exclusions parameters
        (checkQuery parameters coercer strict exclusions input).normalized) :=
    congrArg reported (checkFields_eq ..)
  refine ⟨(settled_normalizeQuery coercer input).1, checkFields_eq strict exclusions parameters, herrors, ?_⟩
  rw [herrors, reported_eq_none_iff, queryErrors, List.append_eq_nil_iff, List.map_eq_nil_iff, List.filter_eq_nil_iff,
    List.flatMap_eq_nil_iff]
  refine and_congr ⟨fun h before key value after hsplit => ?_, fun h entry hentry => ?_⟩ ?_
  · exact h (before, key, value) (mem_withBefore.2 ⟨after, hsplit⟩)
  · obtain ⟨after, hsplit⟩ := mem_withBefore.1 hentry
    exact h entry.1 entry.2.1 entry.2.2 after hsplit
  · simp only [Bool.not_eq_true]

end ApiContract
