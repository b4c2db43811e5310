import ApiContract.Query.Input
import ApiContract.Route.Basic
import ApiContract.Text.Blank

/-!
# Checking queries

A query is nested, coerced and then checked against the query parameters of a route. Names are compared
without regard to case; of several parameters with one name each takes one value.

* `isBlankValue`: the values that count as empty.
* `checkFields`: the problems of a query, value by value.
* `checkQuery`: the query as it was checked, and its problems.
-/

namespace ApiContract

/-- What came of a query. -/
structure QueryOutcome where
  /-- The query, nested and coerced. -/
  normalized : Fields
  /-- The problems found; nothing if the query is valid. -/
  errors : Option (List ErrorObject)
  errors_ne_nil : errors ≠ some []

namespace QueryOutcome

/-- The outcome of a query in which some problems have been found, or none. -/
def ofProblems (normalized : Fields) (problems : List ErrorObject) : QueryOutcome :=
  ⟨normalized, reported problems, reported_ne_nil problems⟩

/-- The problems found, of which there may be none. -/
def problems (outcome : QueryOutcome) : List ErrorObject := outcome.errors.getD []

@[simp] theorem normalized_ofProblems (normalized : Fields) (problems : List ErrorObject) :
    (ofProblems normalized problems).normalized = normalized := rfl

@[simp] theorem problems_ofProblems (normalized : Fields) (problems : List ErrorObject) :
    (ofProblems normalized problems).problems = problems := getD_reported problems

/-- There are no errors exactly if there is no problem. -/
theorem errors_eq_none_iff (outcome : QueryOutcome) : outcome.errors = none ↔ outcome.problems = [] := by
  obtain ⟨_, _ | _, hne⟩ := outcome
  · simp [problems]
  · simpa [problems] using hne

end QueryOutcome

/-! ## Single values -/

/-- Whether a value counts as empty: nothing, a blank text, or a list of at most one such value. -/
def isBlankValue : Json → Bool
  | .null => true
  | .string text => isAllBlank text
  | .array [] => true
  | .array [item] => isBlankValue item
  | _ => false

def unknownParameter (name : String) : ErrorObject :=
  (ErrorObject.validation .request "invalid-query-parameter"
    "The query parameter is not supported.").withParameter name

def emptyParameter (name : String) : ErrorObject :=
  (ErrorObject.validation .request "query-parameter"
    "The query parameter must not be empty.").withParameter name

def missingParameter (name : String) : ErrorObject :=
  (ErrorObject.validation .request "required-query-parameter"
    "The query parameter is required.").withParameter name

/-- The problems of what an instance fails of a schema. -/
def schemaErrors (side : Side) (schema : CompiledSchema) (inst : Json) : List ErrorObject :=
  let violations := schema.violations inst
  if violations.isEmpty then [] else ErrorObject.ofViolations side violations

/-- The problems of a value of a parameter. -/
def valueErrors (parameter : QueryParameter) (name : String) (value : Json) : List ErrorObject :=
  if !parameter.allowEmptyValue && isBlankValue value then [emptyParameter name]
  else schemaErrors .request parameter.schema value

/-! ## Whole queries -/

/-- The first parameter of a name, and the others. -/
def takeParameter? (name : String) :
    List QueryParameter → Option (QueryParameter × List QueryParameter)
  | [] => none
  | parameter :: rest =>
    if parameter.name = name then some (parameter, rest)
    else (takeParameter? name rest).map fun found => (found.1, parameter :: found.2)

/-- The problems of a query, from the parameters that have not taken a value yet. Parameters that are
required and never take one come last. -/
def checkFields (strict : Bool) (exclusions : List String) :
    List QueryParameter → Fields → List ErrorObject
  | remaining, [] =>
    (remaining.filter (·.required)).map fun parameter => missingParameter parameter.name
  | remaining, (key, value) :: rest =>
    let name := lowerCase key
    match takeParameter? name remaining with
    | some (parameter, others) =>
      valueErrors parameter key value ++ checkFields strict exclusions others rest
    | none =>
      let isExcluded := exclusions.any fun excluded => lowerCase excluded == name
      (if strict && !isExcluded then [unknownParameter key] else []) ++
        checkFields strict exclusions remaining rest

/-- A query, nested and coerced. -/
def normalizeQuery (coercer : Option Coercer) (input : Fields) : Fields :=
  match coercer with
  | some c => c.coerce (nestFields input)
  | none => nestFields input

/-- Checks a query. With `strict`, names that no parameter has are problems unless they are
excluded. -/
def checkQuery (parameters : List QueryParameter) (coercer : Option Coercer) (strict : Bool)
    (exclusions : List String) (input : Fields) : QueryOutcome :=
  let normalized := normalizeQuery coercer input
  .ofProblems normalized (checkFields strict exclusions parameters normalized)

end ApiContract
