/-!
# Arguments

What the program is told to do. A command has a name and options; every option has a long name, and its
value stands behind an equals sign or in the next argument.

* `OptionKind`, `OptionSpec`: the options that a command knows.
* `readOptions`: the options among arguments.
* `Command`, `Command.ofArguments`: what is to be done.
-/

namespace ApiContract

/-! ## Options -/

/-- What an option takes. -/
inductive OptionKind where
  /-- No value. -/
  | flag
  /-- A text. -/
  | text
  /-- The path of a file, which cannot be empty. -/
  | path
  /-- One of some words. -/
  | word (words : List String)
  /-- A text; the option may be given several times. -/
  | texts
deriving DecidableEq, Repr

/-- An option that a command knows. -/
structure OptionSpec where
  /-- The name, without the hyphens before it. -/
  name : String
  kind : OptionKind
  required : Bool
deriving DecidableEq, Repr

/-- Why arguments cannot be followed. -/
inductive UsageError where
  | missingCommand
  | unknownCommand (name : String)
  | unknownOption (name : String)
  | missingValue (name : String)
  | unexpectedValue (name : String)
  | invalidValue (name value : String)
  | repeatedOption (name : String)
  | missingOption (name : String)
  | unexpectedArgument (text : String)
deriving DecidableEq, Repr

def UsageError.message : UsageError → String
  | missingCommand => "a command is required: routes or check"
  | unknownCommand name => "unknown command '" ++ name ++ "'"
  | unknownOption name => "unknown option '" ++ name ++ "'"
  | missingValue name => "a value is required for '--" ++ name ++ "'"
  | unexpectedValue name => "'--" ++ name ++ "' takes no value"
  | invalidValue name value => "invalid value '" ++ value ++ "' for '--" ++ name ++ "'"
  | repeatedOption name => "'--" ++ name ++ "' cannot be used multiple times"
  | missingOption name => "'--" ++ name ++ "' is required"
  | unexpectedArgument text => "unexpected argument '" ++ text ++ "'"

/-- Options with their values; a flag has the empty value. -/
abbrev GivenOptions := List (String × String)

namespace GivenOptions

def get? (given : GivenOptions) (name : String) : Option String :=
  (given.find? (·.1 == name)).map (·.2)

def has (given : GivenOptions) (name : String) : Bool := (given.get? name).isSome

/-- Every value of an option. -/
def all (given : GivenOptions) (name : String) : List String :=
  (given.filter (·.1 == name)).map (·.2)

end GivenOptions

/-- Whether an argument is an option and not a value: it starts with a hyphen and is more than that. -/
def isOptionLike (argument : String) : Bool :=
  argument.toList.head? == some '-' && decide (1 < argument.length)

/-- The name and the value of an argument that starts with two hyphens. -/
def splitOption (argument : String) : String × Option String :=
  let body := argument.toList.drop 2
  let name := String.ofList (body.takeWhile (· ≠ '='))
  match body.dropWhile (· ≠ '=') with
  | [] => (name, none)
  | _ :: value => (name, some (String.ofList value))

/-- Whether an argument starts with two hyphens. -/
def isLongOption (argument : String) : Bool := ['-', '-'].isPrefixOf argument.toList

/-- Checks the value of an option. -/
def checkValue (spec : OptionSpec) (value : String) : Except UsageError String :=
  match spec.kind with
  | .path => if value.isEmpty then .error (.missingValue spec.name) else .ok value
  | .word words =>
    if words.contains value then .ok value else .error (.invalidValue spec.name value)
  | _ => .ok value

/-- The value of an option, from behind the equals sign or from the next argument, and the arguments
left. -/
def takeValue (spec : OptionSpec) (inline : Option String) (rest : List String) :
    Except UsageError (String × List String) :=
  match spec.kind, inline, rest with
  | .flag, none, _ => .ok ("", rest)
  | .flag, some _, _ => .error (.unexpectedValue spec.name)
  | _, some value, _ => (checkValue spec value).map fun v => (v, rest)
  | _, none, value :: others =>
    if isOptionLike value then .error (.missingValue spec.name)
    else (checkValue spec value).map fun v => (v, others)
  | _, none, [] => .error (.missingValue spec.name)

/-- The arguments left after a value has been taken are no more than before. -/
theorem length_takeValue_le {spec : OptionSpec} {inline : Option String} {rest : List String}
    {taken : String × List String} (h : takeValue spec inline rest = .ok taken) :
    taken.2.length ≤ rest.length := by
  unfold takeValue at h
  split at h
  · cases h
    exact Nat.le_refl _
  · cases h
  · next value _ =>
    cases hv : checkValue spec value <;> simp [hv, Except.map] at h
    subst h
    exact Nat.le_refl _
  · next value others _ =>
    split at h
    · cases h
    · cases hv : checkValue spec value <;> simp [hv, Except.map] at h
      subst h
      exact Nat.le_succ _
  · cases h

/-- What arguments ask for: options, or to be told about the program. -/
inductive Asked (α : Type) where
  | help
  | version
  | given (value : α)
deriving Repr

/-- Reads the options of a command. Nothing but options is allowed. -/
def readOptions (specs : List OptionSpec) (given : GivenOptions) (arguments : List String) :
    Except UsageError (Asked GivenOptions) :=
  match arguments with
  | [] => .ok (.given given)
  | argument :: rest =>
    if argument = "--" then
      match rest with
      | [] => .ok (.given given)
      | extra :: _ => .error (.unexpectedArgument extra)
    else if argument = "-h" || argument = "--help" then .ok .help
    else if !isLongOption argument then .error (.unexpectedArgument argument)
    else
      let parts := splitOption argument
      match specs.find? (·.name == parts.1) with
      | none => .error (.unknownOption argument)
      | some spec =>
        match _h : takeValue spec parts.2 rest with
        | .error e => .error e
        | .ok taken =>
          if given.has spec.name && spec.kind ≠ .texts then .error (.repeatedOption spec.name)
          else readOptions specs (given ++ [(spec.name, taken.1)]) taken.2
termination_by arguments.length
decreasing_by
  have := length_takeValue_le _h
  simp
  omega

/-- The first required option that is not given. -/
def missingOption? (specs : List OptionSpec) (given : GivenOptions) : Option String :=
  (specs.find? fun spec => spec.required && !given.has spec.name).map (·.name)

/-! ## Commands -/

/-- What is to be checked of one exchange. -/
structure CheckRequest where
  contract : String
  config : Option String
  path : String
  method : String
  /-- The query as it stands in an address. -/
  query : Option String
  /-- The file of the request body. -/
  body : Option String
  /-- The status of the response. -/
  status : Option String
  /-- The file of the response body. -/
  response : Option String
  /-- Whether parameters and bodies that are not declared are accepted. -/
  lenient : Bool
  /-- The names of parameters that are accepted although they are not declared. -/
  exclusions : List String
deriving DecidableEq, Repr

/-- What is to be done. -/
inductive Command where
  /-- Lists the routes of a contract. -/
  | routes (contract : String) (config : Option String) (asJson : Bool)
  | check (request : CheckRequest)
  | help
  | version
deriving DecidableEq, Repr

namespace Command

/-- The option for the form of log lines, which stands before or behind the command. -/
def logFormat : OptionSpec := ⟨"log-format", .word ["text", "json"], false⟩

def routesOptions : List OptionSpec :=
  [⟨"contract", .path, true⟩, ⟨"config", .path, false⟩, ⟨"json", .flag, false⟩, logFormat]

def checkOptions : List OptionSpec :=
  [⟨"contract", .path, true⟩, ⟨"config", .path, false⟩, ⟨"path", .text, true⟩,
    ⟨"method", .text, true⟩, ⟨"query", .text, false⟩, ⟨"body", .path, false⟩,
    ⟨"status", .text, false⟩, ⟨"response", .path, false⟩, ⟨"lenient", .flag, false⟩,
    ⟨"exclude", .texts, false⟩, logFormat]

/-- The options of a command, all of the required ones among them. -/
def readAll (specs : List OptionSpec) (arguments : List String) :
    Except UsageError (Asked GivenOptions) :=
  match readOptions specs [] arguments with
  | .error e => .error e
  | .ok (.given given) =>
    match missingOption? specs given with
    | some name => .error (.missingOption name)
    | none => .ok (.given given)
  | .ok asked => .ok asked

def routesOf (arguments : List String) : Except UsageError Command :=
  match readAll routesOptions arguments with
  | .error e => .error e
  | .ok .help => .ok help
  | .ok .version => .ok version
  | .ok (.given given) =>
    .ok (routes ((given.get? "contract").getD "") (given.get? "config") (given.has "json"))

/-- A response body can only be checked for a status. -/
def checkOf (arguments : List String) : Except UsageError Command :=
  match readAll checkOptions arguments with
  | .error e => .error e
  | .ok .help => .ok help
  | .ok .version => .ok version
  | .ok (.given given) =>
    if given.has "response" && !given.has "status" then .error (.missingOption "status")
    else
      .ok (check
        { contract := (given.get? "contract").getD ""
          config := given.get? "config"
          path := (given.get? "path").getD ""
          method := (given.get? "method").getD ""
          query := given.get? "query"
          body := given.get? "body"
          status := given.get? "status"
          response := given.get? "response"
          lenient := given.has "lenient"
          exclusions := given.all "exclude" })

/-- A command by its name. -/
def ofName (name : String) (arguments : List String) : Except UsageError Command :=
  if name = "routes" then routesOf arguments
  else if name = "check" then checkOf arguments
  else if name = "help" then .ok help
  else .error (.unknownCommand name)

/-- The command that arguments ask for; the form of log lines may be given before its name, once. -/
def ofArguments (arguments : List String) (hasLogFormat : Bool) : Except UsageError Command :=
  match arguments with
  | [] => .error .missingCommand
  | argument :: rest =>
    if argument = "-h" || argument = "--help" then .ok help
    else if argument = "-V" || argument = "--version" then .ok version
    else if isLongOption argument then
      let parts := splitOption argument
      if parts.1 = logFormat.name then
        match _h : takeValue logFormat parts.2 rest with
        | .error e => .error e
        | .ok taken =>
          if hasLogFormat then .error (.repeatedOption logFormat.name)
          else ofArguments taken.2 true
      else .error (.unknownOption argument)
    else if isOptionLike argument then .error (.unknownOption argument)
    else ofName argument rest
termination_by arguments.length
decreasing_by
  have := length_takeValue_le _h
  simp
  omega

end Command

end ApiContract
