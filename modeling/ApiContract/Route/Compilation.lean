import ApiContract.Preparation
import ApiContract.Reference
import ApiContract.Route.Basic

/-!
# Compiling routes

Every operation of a contract becomes a route. An operation is compiled as a whole: when any of its parts
fails, nothing of it is kept.

* `Contract`: a prepared document, with its components read.
* `Contract.compileOperation`: the route of one operation.
* `Contract.declarations`: the outcome for each operation, in the order of paths and methods.
* `Registry.compile`: the routes of a document. With the option `strict` the first failure fails the
  document; without it the operations that fail are left out.
-/

namespace ApiContract

/-- A prepared document. -/
structure Contract where
  document : Json
  paths : Fields
  components : Option Components
  coercion : CoercionPolicy

namespace Contract

/-- Reads a document after preparing it. -/
def ofDocument (options : Options) (raw : Json) : Except ContractError Contract :=
  let document := prepare options raw
  match decodeDocument document with
  | .error e => .error (.invalidDocument e.message)
  | .ok read => .ok ⟨document, read.paths, read.components, options.coercion⟩

/-! ## Names -/

/-- The place of a path item in the document. -/
def pathLocation (path : String) : String := "#/paths/" ++ escapeStep path

/-- What the names of the schemas of an operation begin with: the path, without braces, and the
method. -/
def schemaBase (path method : String) : String :=
  let bare := path.toList.filter fun c => c != '\x7b' && c != '\x7d'
  "#/paths" ++ String.ofList bare ++ "/" ++ method

/-! ## Parts of an operation -/

/-- Compiles a schema of the contract. -/
def compileSchema (contract : Contract) (name : String) (schema : Json) :
    Except ContractError CompiledSchema :=
  CompiledSchema.compile name schema (contract.document.get? "components")

/-- The request body of an operation, if it has a JSON schema. -/
def compileRequestBody (contract : Contract) (base : String)
    (declared : Option (OrReference RequestBody)) : Except ContractError (Option BodyCheck) :=
  match declared with
  | none => .ok none
  | some entry => do
    let body ← entry.resolve (lookupRequestBody contract.components)
    match body.jsonSchema? with
    | none => .ok none
    | some schema =>
      let compiled ← contract.compileSchema (base ++ "/requestBody") schema
      .ok (some ⟨compiled, body.required⟩)

/-- The responses of an operation that have a JSON schema. -/
def compileResponses (contract : Contract) (base : String) :
    Table (OrReference Response) → Except ContractError (Table CompiledSchema)
  | [] => .ok []
  | (status, entry) :: rest => do
    let response ← entry.resolve (lookupResponse contract.components)
    match response.jsonSchema? with
    | none => compileResponses contract base rest
    | some schema =>
      let compiled ← contract.compileSchema (base ++ "/response/" ++ status) schema
      let others ← compileResponses contract base rest
      .ok ((status, compiled) :: others)

/-! ## Parameters -/

/-- The items of entries, in place or by reference. -/
def resolveParameters (contract : Contract) :
    List (OrReference Parameter) → Except ContractError (List Parameter)
  | [] => .ok []
  | entry :: rest => do
    let parameter ← entry.resolve (lookupParameter contract.components)
    let others ← contract.resolveParameters rest
    .ok (parameter :: others)

/-- Puts a parameter in the place of the one with the same name and location, or behind all. -/
def overrideParameter (parameter : Parameter) : List Parameter → List Parameter
  | [] => [parameter]
  | other :: rest =>
    if other.name = parameter.name ∧ other.location = parameter.location then parameter :: rest
    else other :: overrideParameter parameter rest

/-- The parameters of the path, overridden by those of the operation. -/
def effectiveParameters (shared own : List Parameter) : List Parameter :=
  own.foldl (fun effective parameter => overrideParameter parameter effective) shared

/-- The parameters in the query that have a schema. -/
def querySchemas (parameters : List Parameter) : List (Parameter × Json) :=
  parameters.filterMap fun parameter =>
    if parameter.location = .query then parameter.schema.map fun schema => (parameter, schema)
    else none

/-- Compiles the query parameters. -/
def compileParameters (contract : Contract) (base : String) :
    List (Parameter × Json) → Except ContractError (List QueryParameter)
  | [] => .ok []
  | (parameter, schema) :: rest => do
    let compiled ← contract.compileSchema (base ++ "/parameters/" ++ parameter.name) schema
    let others ← compileParameters contract base rest
    .ok (⟨lowerCase parameter.name, parameter.required, parameter.allowEmptyValue, compiled⟩ ::
      others)

/-- The coercer of query parameters, if there are any and values are coerced. -/
def coercerOf (contract : Contract) (schemas : List (Parameter × Json)) : Option Coercer :=
  if contract.coercion.isEnabled && !schemas.isEmpty then
    some (.ofSchemas contract.coercion (schemas.map fun entry =>
      (entry.1.name, inlineSchema contract.document entry.2)))
  else none

/-! ## Operations -/

/-- Reads the parameters of a path item, whose first one has a place among them. -/
def readParameters (location : String) (place : Nat) :
    List Json → Except ContractError (List (OrReference Parameter))
  | [] => .ok []
  | raw :: rest => do
    let parameter ← readDefinition (decodeOrReference decodeParameter)
      (location ++ "/parameters/" ++ naturalText place) raw
    let others ← readParameters location (place + 1) rest
    .ok (parameter :: others)

/-- The route of an operation. -/
def compileOperation (contract : Contract) (path : String) (method : Method) (raw : Json)
    (shared : List Json) : Except ContractError Route := do
  let location := pathLocation path
  let operation ← readDefinition decodeOperation (location ++ "/" ++ method.name) raw
  let sharedEntries ← readParameters location 0 shared
  let base := schemaBase path method.name
  let requestBody ← contract.compileRequestBody base operation.requestBody
  let responses ← contract.compileResponses base operation.responses
  let sharedParameters ← contract.resolveParameters sharedEntries
  let ownParameters ← contract.resolveParameters operation.parameters
  let schemas := querySchemas (effectiveParameters sharedParameters ownParameters)
  let parameters ← contract.compileParameters base schemas
  .ok ⟨path, requestBody, responses, parameters, contract.coercerOf schemas⟩

/-- Reads a path item; null is none. -/
def readPathItem (path : String) (raw : Json) : Except ContractError PathItem :=
  if raw.isNull then .error (.missingPathDetail path)
  else readDefinition decodePathItem (pathLocation path) raw

/-- The outcome for each operation of a path, or the one failure of the path item. -/
def pathDeclarations (contract : Contract) (path : String) (raw : Json) :
    List (Except ContractError (RouteKey × Route)) :=
  match readPathItem path raw with
  | .error e => [.error e]
  | .ok item =>
    item.operations.map fun entry =>
      (contract.compileOperation path entry.1 entry.2 item.parameters).map fun route =>
        (RouteKey.of path entry.1.name, route)

/-- The outcome for each operation of a contract. -/
def declarations (contract : Contract) : List (Except ContractError (RouteKey × Route)) :=
  contract.paths.flatMap fun entry => contract.pathDeclarations entry.1 entry.2

end Contract

/-- All results, or the first failure. -/
def allResults {ε α : Type} : List (Except ε α) → Except ε (List α)
  | [] => .ok []
  | .error e :: _ => .error e
  | .ok value :: rest => (allResults rest).map (value :: ·)

/-- The results that are no failures. -/
def someResults {ε α : Type} (outcomes : List (Except ε α)) : List α :=
  outcomes.filterMap Except.toOption

/-- The routes of a document. -/
def Registry.compile (options : Options) (raw : Json) : Except ContractError Registry := do
  let contract ← Contract.ofDocument options raw
  if options.strict then
    let declarations ← allResults contract.declarations
    .ok (ofDeclarations declarations)
  else .ok (ofDeclarations (someResults contract.declarations))

end ApiContract
