import ApiContract.Options
import ApiContract.Text.Blank
import ApiContract.Yaml.Resolution

/-!
# Option files

Options are read from a YAML file, and so from a JSON file as well. Only the four options are looked at;
whatever else the file holds does not count, not even for its values being well formed.

* `Options.ofYaml`: the options of a text; a text without anything in it leaves the defaults.
-/

namespace ApiContract

namespace Options

/-- The names of the options. -/
def names : List String :=
  ["setAdditionalPropertiesToFalse", "convertDatesToIsoString", "coerceTypes", "strict"]

/-- The JSON value of a node. -/
def nodeValue (targets : List (Nat × Yaml.Node)) (node : Yaml.Node) : Except String Json := do
  let value ← Yaml.resolveNode targets Yaml.deepest node
  match value.toJson? with
  | .ok json => .ok json
  | .error key => .error (key.describe ++ " is no key")

/-- The entries of a mapping that are options. No option may be given twice. -/
def optionEntries (targets : List (Nat × Yaml.Node)) (read : List (String × Json)) :
    List (Yaml.Node × Yaml.Node) → Except String (List (String × Json))
  | [] => .ok read
  | (key, value) :: rest =>
    match Yaml.targetOf? targets key with
    | some (.scalar _ _ name) =>
      if !names.contains name then optionEntries targets read rest
      else if read.any (·.1 == name) then .error ("option " ++ name ++ " is given twice")
      else do
        let json ← nodeValue targets value
        optionEntries targets ((name, json) :: read) rest
    | _ => .error "the name of an option is no text"

/-- The options of a JSON value. -/
def decodeText (value : Json) : Except String Options :=
  (decode value).mapError DecodeError.message

/-- The options of a document: a mapping by name, or a sequence in the order of the options. Nothing at
all leaves the defaults. -/
def ofDocument (document : Yaml.Document) : Except String Options :=
  match Yaml.targetOf? document.targets document.root with
  | some (.mapping _ entries) => do
    let read ← optionEntries document.targets [] entries
    decodeText (.objectOf read)
  | some (.sequence _ items) => do
    let values ← items.mapM (nodeValue document.targets)
    decodeText (.array values)
  | some (.scalar _ _ "") => .ok defaults
  | _ => .error "options have to be a mapping"

/-- The options of a text. -/
def ofYaml (text : String) : Except String Options :=
  if isAllBlank text then .ok defaults
  else
    match Yaml.documentOf text with
    | .error e => .error e
    | .ok none => .ok defaults
    | .ok (some document) => ofDocument document

end Options

end ApiContract
