import ApiContract.Command.Arguments
import ApiContract.Command.Configuration
import ApiContract.Json.Printer
import ApiContract.Validator

/-!
# Running commands

A command reads some files and writes a text. The files are given beforehand: what is in each of them, or
why it cannot be read.

* `Report`, `report`: what came of checking one exchange.
* `CommandError`: why a command cannot do its work, with `CommandError.message`.
* `run`: the outcome of a command, as others see it: a text, an exit code and an error.
-/

namespace ApiContract

/-- What is in a file, by its path, or why it cannot be read. -/
abbrev Files := String → Except String String

/-- Why a command cannot do its work. -/
inductive CommandError where
  | unreadableConfig (path reason : String)
  | malformedConfig (path reason : String)
  | contract (path : String) (error : ContractError)
  | nothingToCheck
  | unreadableBody (path reason : String)
  | malformedBody (path reason : String)
deriving DecidableEq, Repr

def CommandError.message : CommandError → String
  | unreadableConfig path reason => "failed to read config file " ++ path ++ ": " ++ reason
  | malformedConfig path reason => "failed to parse config file " ++ path ++ ": " ++ reason
  | contract path error => "failed to compile contract " ++ path ++ ": " ++ error.message
  | nothingToCheck => "nothing to check: pass --query, --body or --status"
  | unreadableBody path reason => "failed to read " ++ path ++ ": " ++ reason
  | malformedBody path reason => path ++ " is not valid JSON: " ++ reason

/-! ## Reading files -/

/-- The options of a file; the defaults without one. -/
def loadOptions (files : Files) : Option String → Except CommandError Options
  | none => .ok .defaults
  | some path =>
    match files path with
    | .error reason => .error (.unreadableConfig path reason)
    | .ok text => (Options.ofYaml text).mapError (.malformedConfig path)

/-- The validator of a contract file. -/
def loadContract (files : Files) (options : Options) (path : String) :
    Except CommandError Validator :=
  match files path with
  | .error reason => .error (.contract path (.load path reason))
  | .ok text =>
    (Validator.ofText options (.ofPath path) path text).mapError (.contract path)

/-- The validator of a contract file, by the options of another one. -/
def loadValidator (files : Files) (contract : String) (config : Option String) :
    Except CommandError Validator := do
  let options ← loadOptions files config
  loadContract files options contract

/-- The body in a file. -/
def loadBody (files : Files) (path : String) : Except CommandError Json :=
  match files path with
  | .error reason => .error (.unreadableBody path reason)
  | .ok text => (Json.parse text).mapError (.malformedBody path)

/-- The body in a file, if there is one. -/
def loadBody? (files : Files) : Option String → Except CommandError (Option Json)
  | none => .ok none
  | some path => (loadBody files path).map some

/-! ## Checking -/

/-- What came of checking one exchange. -/
structure Report where
  errors : List ErrorObject
  /-- The query as it was checked, if one was. -/
  normalizedParams : Option Fields

namespace Report

/-- The report in the order of its fields. -/
def toJson (report : Report) : Json :=
  .object
    (("errors", .array (report.errors.map ErrorObject.toJson)) ::
      report.normalizedParams.toList.map fun fields => ("normalizedParams", .object fields))

end Report

/-- The errors of the response in a request, if its status is given. -/
def responseErrors (validator : Validator) (request : CheckRequest) (body : Option Json) :
    List ErrorObject :=
  match request.status with
  | some status =>
    (validator.checkResponseBody request.path request.method status (!request.lenient) body).getD []
  | none => []

/-- The errors of the request body, if there is one. -/
def requestErrors (validator : Validator) (request : CheckRequest) (body : Option Json) :
    List ErrorObject :=
  match body with
  | some value =>
    (validator.checkRequestBody request.path request.method (!request.lenient) (some value)).getD []
  | none => []

/-- Checks what a request gives: the query first, then the request body, then the response. -/
def report (validator : Validator) (files : Files) (request : CheckRequest) :
    Except CommandError Report :=
  if request.query.isNone && request.body.isNone && request.status.isNone then
    .error .nothingToCheck
  else do
    let outcome := request.query.map fun query =>
      validator.checkQuery request.path request.method (!request.lenient) request.exclusions
        (fieldsOfPairs (decodeQueryString query))
    let requestBody ← loadBody? files request.body
    let responseBody ← loadBody? files (if request.status.isSome then request.response else none)
    .ok
      { errors :=
          ((outcome.map (·.problems)).getD [] ++ requestErrors validator request requestBody) ++
            responseErrors validator request responseBody
        normalizedParams := outcome.map (·.normalized) }

/-! ## Commands -/

/-- What a command leaves behind. -/
structure CommandOutcome where
  output : String
  exitCode : Nat
  error : Option String
deriving DecidableEq, Repr

/-- A text on lines of its own. -/
def lines (texts : List String) : String := String.join (texts.map fun text => text ++ "\n")

/-- The text that tells how the program is used. -/
def helpText : String :=
  lines
    ["Validates queries, request bodies and response bodies against an OpenAPI contract.", "",
      "Commands:",
      "  routes --contract FILE [--config FILE] [--json]",
      "  check --contract FILE [--config FILE] --path PATH --method METHOD [--query QUERY]",
      "        [--body FILE] [--status STATUS [--response FILE]] [--lenient] [--exclude NAME]...",
      "", "Options:", "  --log-format text|json", "  --help", "  --version"]

def versionText : String := "ocv 0.1.0\n"

/-- The files that a command reads. -/
def Command.paths : Command → List String
  | .routes contract config _ => config.toList ++ [contract]
  | .check request =>
    request.config.toList ++ [request.contract] ++ request.body.toList ++ request.response.toList
  | .help | .version => []

/-- The outcome of listing routes. -/
def runRoutes (files : Files) (contract : String) (config : Option String) (asJson : Bool) :
    Except CommandError CommandOutcome := do
  let validator ← loadValidator files contract config
  let output :=
    if asJson then lines [(Json.array (validator.routes.map RouteSummary.toJson)).pretty]
    else lines (validator.routes.map RouteSummary.line)
  .ok ⟨output, 0, none⟩

/-- The outcome of a check; the exit code tells whether there are errors. -/
def runCheck (files : Files) (request : CheckRequest) : Except CommandError CommandOutcome := do
  let validator ← loadValidator files request.contract request.config
  let result ← report validator files request
  .ok ⟨lines [result.toJson.pretty], if result.errors.isEmpty then 0 else 1, none⟩

/-- What a command does; a failure has the exit code 2. -/
def Command.run (files : Files) (command : Command) : CommandOutcome :=
  let outcome := match command with
    | .routes contract config asJson => runRoutes files contract config asJson
    | .check request => runCheck files request
    | .help => .ok ⟨helpText, 0, none⟩
    | .version => .ok ⟨versionText, 0, none⟩
  match outcome with
  | .ok done => done
  | .error e => ⟨"", 2, some e.message⟩

end ApiContract
