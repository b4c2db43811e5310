import ApiContract.NativeDate
import ApiContract.Query.Check
import ApiContract.Route.Compilation
import ApiContract.Source

/-!
# Validators

A validator holds the compiled routes of one contract and checks what is exchanged on them: queries,
request bodies and response bodies. A problem is an error object; nothing is reported if all is well.

Paths are given as the contract has them, with the names of their parameters in braces.
-/

namespace ApiContract

/-- The compiled routes of a contract. -/
structure Validator where
  registry : Registry
  options : Options

namespace Validator

/-- Compiles a contract. -/
def ofDocument (options : Options) (document : Json) : Except ContractError Validator :=
  (Registry.compile options document).map fun registry => ⟨registry, options⟩

/-- Compiles a contract given as a text. -/
def ofText (options : Options) (format : SourceFormat) (source text : String) :
    Except ContractError Validator :=
  (readSource format source text).bind (ofDocument options)

/-- What the routes check. -/
def routes (validator : Validator) : List RouteSummary := validator.registry.summaries

/-- Checks the query of a request. -/
def checkQuery (validator : Validator) (path method : String) (strict : Bool)
    (exclusions : List String) (input : Fields) : QueryOutcome :=
  let key := RouteKey.of path method
  ApiContract.checkQuery (validator.registry.parameters key) (validator.registry.coercer? key)
    strict exclusions input

/-! ## Bodies -/

/-- A body that has been sent; null means that there is none. -/
def present (body : Option Json) : Option Json := body.filter fun value => !value.isNull

def unexpectedRequestBody : ErrorObject :=
  .validation .request "unexpected-request-body" "A request body is not supported"

def missingRequestBody : ErrorObject :=
  .validation .request "missing-request-body" "A request body is required"

def unexpectedResponseBody : ErrorObject :=
  .validation .response "unexpected-response-body" "A response body is not supported"

/-- The problems of a body, its native dates written as texts if the options say so. -/
def bodyErrors (validator : Validator) (side : Side) (schema : CompiledSchema) (body : Json) :
    Option (List ErrorObject) :=
  reported
    (schemaErrors side schema (if validator.options.convertDates then NativeDate.convert body else body))

/-- Checks a request body. With `strict`, a body that the contract does not declare is a problem. -/
def checkRequestBody (validator : Validator) (path method : String) (strict : Bool)
    (body : Option Json) : Option (List ErrorObject) :=
  match present body, validator.registry.requestBody? (.of path method) with
  | some value, some check => validator.bodyErrors .request check.schema value
  | some _, none => if strict then some [unexpectedRequestBody] else none
  | none, some check => if check.required then some [missingRequestBody] else none
  | none, none => none

/-- Checks a response body. One that is declared is checked as null when there is none. -/
def checkResponseBody (validator : Validator) (path method status : String) (strict : Bool)
    (body : Option Json) : Option (List ErrorObject) :=
  match validator.registry.response? (.of path method) status with
  | some schema => validator.bodyErrors .response schema ((present body).getD .null)
  | none => if strict && (present body).isSome then some [unexpectedResponseBody] else none

/-- What is reported of a body are some problems. -/
theorem problems_ne_nil (validator : Validator) (path method : String) (strict : Bool) (body : Option Json) :
    validator.checkRequestBody path method strict body ≠ some [] ∧
      ∀ status, validator.checkResponseBody path method status strict body ≠ some [] := by
  constructor
  · unfold checkRequestBody
    split
    · exact reported_ne_nil _
    · split <;> simp
    · split <;> simp
    · simp
  · intro status
    unfold checkResponseBody
    split
    · exact reported_ne_nil _
    · split <;> simp

end Validator

end ApiContract
