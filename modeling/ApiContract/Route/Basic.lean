import ApiContract.Coercion
import ApiContract.Definition.Basic
import ApiContract.Route.Key
import ApiContract.Schema.Compiled

/-!
# Routes

What is checked on a route: its request body, its responses by status, and its query parameters.

* `Route`, with `Route.over`, which puts a later declaration of a route over an earlier one.
* `Registry`: the routes of a contract by their keys.
* `RouteSummary`: what a route checks, as clients are told.
-/

namespace ApiContract

/-- The request body of a route. -/
structure BodyCheck where
  schema : CompiledSchema
  required : Bool
deriving Repr

/-- A query parameter of a route. -/
structure QueryParameter where
  /-- The name in lower case. -/
  name : String
  required : Bool
  allowEmptyValue : Bool
  schema : CompiledSchema
deriving Repr

/-- What is checked on a route. -/
structure Route where
  /-- The path as the contract has it. -/
  path : String
  requestBody : Option BodyCheck
  /-- The schemas of the response bodies, by status. -/
  responses : Table CompiledSchema
  parameters : List QueryParameter
  coercer : Option Coercer

/-- A later declaration of a route over an earlier one: what the later one does not check stays. -/
def Route.over (later earlier : Route) : Route :=
  { path := later.path
    requestBody := later.requestBody.or earlier.requestBody
    responses := if later.responses.isEmpty then earlier.responses else later.responses
    parameters := if later.parameters.isEmpty then earlier.parameters else later.parameters
    coercer := later.coercer.or earlier.coercer }

/-! ## Registries -/

/-- Routes by their keys, in the order of the keys. -/
abbrev Registry := List (RouteKey × Route)

namespace Registry

def get? (registry : Registry) (key : RouteKey) : Option Route :=
  (registry.find? (·.1 = key)).map (·.2)

/-- Adds the declaration of a route. -/
def declare (key : RouteKey) (route : Route) : Registry → Registry
  | [] => [(key, route)]
  | (known, earlier) :: rest =>
    if known = key then (key, route.over earlier) :: rest
    else if key.precedes known then (key, route) :: (known, earlier) :: rest
    else (known, earlier) :: declare key route rest

/-- The routes of declarations, in the order in which they are made. -/
def ofDeclarations (declarations : List (RouteKey × Route)) : Registry :=
  declarations.foldl (fun registry d => declare d.1 d.2 registry) []

/-- The request body of a route. -/
def requestBody? (registry : Registry) (key : RouteKey) : Option BodyCheck :=
  (registry.get? key).bind (·.requestBody)

/-- The response body of a route for a status. -/
def response? (registry : Registry) (key : RouteKey) (status : String) : Option CompiledSchema :=
  (registry.get? key).bind fun route => route.responses.get? status

/-- The query parameters of a route, in the order of their declaration. -/
def parameters (registry : Registry) (key : RouteKey) : List QueryParameter :=
  ((registry.get? key).map (·.parameters)).getD []

def coercer? (registry : Registry) (key : RouteKey) : Option Coercer :=
  (registry.get? key).bind (·.coercer)

end Registry

/-! ## Summaries -/

/-- What a route checks. -/
structure RouteSummary where
  path : String
  method : String
  /-- Whether a request body is required; nothing if none is checked. -/
  requestBody : Option Bool
  responses : List String
  queryParameters : List String
  coerced : Bool
deriving DecidableEq, Repr

namespace RouteSummary

def ofRoute (key : RouteKey) (route : Route) : RouteSummary :=
  { path := route.path
    method := key.method
    requestBody := route.requestBody.map (·.required)
    responses := route.responses.map (·.1)
    queryParameters := route.parameters.map (·.name)
    coerced := route.coercer.isSome }

/-- The summary in the order of its fields. -/
def toJson (summary : RouteSummary) : Json :=
  .object
    ([("path", .string summary.path), ("method", .string summary.method)] ++
      (summary.requestBody.toList.map fun required => ("requestBody", .bool required)) ++
      [("responses", .strings summary.responses),
       ("queryParameters", .strings summary.queryParameters), ("coerced", .bool summary.coerced)])

/-- A list of names behind a word; nothing for no names. -/
def listed (word : String) (names : List String) : String :=
  if names.isEmpty then "" else "  " ++ word ++ "=" ++ joinWith "," names

/-- The summary on one line, the method in a column of seven characters. -/
def line (summary : RouteSummary) : String :=
  let method := summary.method.toList.map asciiUpperChar
  let column := method ++ List.replicate (7 - method.length) ' '
  let body := match summary.requestBody with
    | some true => "  body=required"
    | some false => "  body=optional"
    | none => ""
  String.ofList column ++ " " ++ summary.path ++ body ++ listed "responses" summary.responses ++
    listed "query" summary.queryParameters ++ (if summary.coerced then "  coerced" else "")

end RouteSummary

/-- What the routes of a contract check, in the order of their keys. -/
def Registry.summaries (registry : Registry) : List RouteSummary :=
  registry.map fun entry => .ofRoute entry.1 entry.2

end ApiContract
