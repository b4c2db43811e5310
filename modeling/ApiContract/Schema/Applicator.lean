import ApiContract.Json.Part
import ApiContract.Json.Printer
import ApiContract.Pattern.Parser
import ApiContract.Schema.Assertion
import ApiContract.Schema.Finding

/-!
# Applicators

The keywords of a schema that apply other schemas to an instance or to its parts. What such a keyword
asks for is written down as a `Demand` on some applications, before any of them is carried out.

* `Application`: a part of the schema to be applied to the instance itself, or any schema to be applied
  to a part of the instance. Either way something gets smaller.
* `Demand`: how the findings of applications make the findings of a keyword, with `Demand.findings`.
* `applicatorDemands`: the demands of one keyword.
-/

namespace ApiContract

/-! ## Demands -/

/-- A schema to be applied to an instance or to a part of it. -/
inductive Application (schema inst : Json) where
  /-- A part of the schema, for the instance itself. -/
  | here (steps : List String) (part : Part schema)
  /-- A schema for a part of the instance. -/
  | inside (steps : List String) (sub : Json) (place : List String) (part : Part inst)

/-- What a keyword asks for. -/
inductive Demand (α : Type) where
  /-- Nothing can satisfy it. -/
  | fails (finding : Finding)
  /-- Every application succeeds. -/
  | all (applications : List α)
  /-- Some application succeeds; else there is one finding. -/
  | some (applications : List α) (otherwise : Finding)
  /-- Exactly one application succeeds; else there is one finding. -/
  | one (applications : List α) (fewer more : Finding)
  /-- An application does not succeed. -/
  | not (application : α) (finding : Finding)
  /-- Some applications succeed, which ones depending on another one. -/
  | branch (test : α) (yes no : List α)
  /-- Every application to a name of the object succeeds; the findings are told of the object. -/
  | names (applications : List α)

/-- The findings of a demand, from those of the applications. -/
def Demand.findings {α : Type} (run : α → List Finding) : Demand α → List Finding
  | fails finding => [finding]
  | all applications => applications.flatMap run
  | some applications otherwise =>
    if applications.any fun a => (run a).isEmpty then [] else [otherwise]
  | one applications fewer more =>
    match applications.countP fun a => (run a).isEmpty with
    | 0 => [fewer]
    | 1 => []
    | _ => [more]
  | not application finding => if (run application).isEmpty then [finding] else []
  | branch test yes no => if (run test).isEmpty then yes.flatMap run else no.flatMap run
  | names applications => applications.flatMap fun a => (run a).map Finding.ofName

/-! ## Several schemas for one instance -/

section

variable {schema inst : Json}

/-- A list of schemas, each for the instance itself. -/
def alternatives (keyword : String) (value : Part schema) : List (Application schema inst) :=
  (numbered (Json.itemParts value.value)).map fun item =>
    .here [keyword, naturalText item.1] (value.inner item.2)

def noneMessage (keyword : String) (inst : Json) : String :=
  inst.compact ++ " is not valid under any of the schemas listed in the '" ++ keyword ++ "' keyword"

def severalMessage (inst : Json) : String :=
  inst.compact ++ " is valid under more than one of the schemas listed in the 'oneOf' keyword"

/-- A condition, and the schemas for both outcomes. Without either of them it asks for nothing. -/
def conditionDemands (test : Part schema) : List (Demand (Application schema inst)) :=
  let yes := (schema.part? "then").toList.map fun part => Application.here ["then"] part
  let no := (schema.part? "else").toList.map fun part => Application.here ["else"] part
  if yes.isEmpty && no.isEmpty then [] else [.branch (.here ["if"] test) yes no]

/-! ## Properties -/

/-- What is said when properties are not allowed. -/
def unexpectedMessage (kind : String) (texts : List String) : String :=
  "Additional " ++ kind ++ " are not allowed (" ++ joinWith ", " texts ++
    (if texts.length = 1 then " was unexpected)" else " were unexpected)")

/-- The patterns of `patternProperties` that match a name, with their schemas. -/
def matchingPatterns (keywords : Fields) (name : String) : List (String × Json) :=
  match keywords.get? "patternProperties" with
  | some (.object patterns) => patterns.filter fun p => matchesPattern p.1 name
  | _ => []

/-- The schema that `properties` gives a name. -/
def declaredProperty? (keywords : Fields) (name : String) : Option Json :=
  match keywords.get? "properties" with
  | some (.object properties) => Fields.get? name properties
  | _ => none

/-- The schemas that a property has from `properties` and from matching patterns. -/
def propertyApplications (keywords : Fields) (name : String) (value : Part inst) :
    List (Application schema inst) :=
  let declared := (declaredProperty? keywords name).toList.map fun sub =>
    Application.inside ["properties", name] sub [name] value
  let matched := (matchingPatterns keywords name).map fun p =>
    Application.inside ["patternProperties", p.1] p.2 [name] value
  declared ++ matched

/-- The names of an object that have no schema. -/
def unexpectedNames (keywords : Fields) (fields : Fields) : List String :=
  (fields.map (·.1)).filter fun name =>
    (declaredProperty? keywords name).isNone && (matchingPatterns keywords name).isEmpty

/-- The schemas for every property, with one more for those that have none. -/
def closedApplications (keywords : Fields) (rest : Option Json) :
    List (Application schema inst) :=
  inst.fieldParts.flatMap fun field =>
    let given := propertyApplications keywords field.1 field.2
    if given.isEmpty then
      rest.toList.map fun sub =>
        Application.inside ["additionalProperties"] sub [field.1] field.2
    else given

/-- Whether further properties are restricted. The keyword that does so takes care of all properties
then, in the order of the instance. -/
def restrictsProperties (keywords : Fields) : Bool :=
  match keywords.get? "additionalProperties" with
  | some (.bool false) => true
  | some (.object _) => true
  | _ => false

/-- No properties but those that have a schema. -/
def closedDemands (keywords fields : Fields) : List (Demand (Application schema inst)) :=
  if keywords.hasKey "properties" || keywords.hasKey "patternProperties" then
    let names := unexpectedNames keywords fields
    let extra : List (Demand (Application schema inst)) :=
      if names.isEmpty then []
      else
        [.fails (.about "additionalProperties"
          (unexpectedMessage "properties" (names.map fun name => "'" ++ name ++ "'")))]
    .all (closedApplications keywords none) :: extra
  else
    match fields with
    | [] => []
    | (_, value) :: _ =>
      [.fails (.about "additionalProperties" ("False schema does not allow " ++ value.compact))]

/-- The schemas of the declared properties that an object has, in the order of the declarations. -/
def declaredApplications (properties : Fields) : List (Application schema inst) :=
  properties.flatMap fun property =>
    (inst.part? property.1).toList.map fun value =>
      Application.inside ["properties", property.1] property.2 [property.1] value

/-- The schemas of properties whose names match patterns, pattern by pattern. -/
def patternApplications (patterns : Fields) : List (Application schema inst) :=
  patterns.flatMap fun p =>
    (inst.fieldParts.filter fun field => matchesPattern p.1 field.1).map fun field =>
      Application.inside ["patternProperties", p.1] p.2 [field.1] field.2

/-- What a property asks for when the object has it: other properties, or a schema of the object. -/
def dependencyDemands (value : Part schema) (fields : Fields) :
    List (Demand (Application schema inst)) :=
  (Json.fieldParts value.value).flatMap fun entry =>
    if fields.hasKey entry.1 then
      match entry.2.value with
      | .array names =>
        (Assertion.missingNames names fields).map fun name =>
          .fails (.about "dependencies" (Assertion.requiredMessage name))
      | _ => [.all [.here ["dependencies", entry.1] (value.inner entry.2)]]
    else []

/-! ## Items -/

/-- One schema for every item. -/
def itemApplications (keyword : String) (sub : Json) (start : Nat) :
    List (Application schema inst) :=
  ((numbered inst.itemParts).drop start).map fun item =>
    .inside [keyword] sub [naturalText item.1] item.2

/-- A schema for each of the first items. -/
def tupleApplications (schemas : List Json) : List (Application schema inst) :=
  ((numbered inst.itemParts).zip schemas).map fun pair =>
    .inside ["items", naturalText pair.1.1] pair.2 [naturalText pair.1.1] pair.1.2

/-- What the items behind a tuple have to satisfy. -/
def additionalItemDemands (keywords : Fields) (value : Json) (items : List Json) :
    List (Demand (Application schema inst)) :=
  match keywords.get? "items", value with
  | some (.array tuple), .object _ => [.all (itemApplications "additionalItems" value tuple.length)]
  | some (.array tuple), .bool false =>
    let extra := items.drop tuple.length
    if extra.isEmpty then []
    else [.fails (.about "additionalItems" (unexpectedMessage "items" (extra.map Json.compact)))]
  | _, _ => []

/-- Whether a value can be a schema for items: an object, or the schema that allows nothing. -/
def isItemSchema : Json → Bool
  | .object _ => true
  | .bool false => true
  | _ => false

/-! ## Keywords -/

/-- The demands of a keyword that applies schemas, among the keywords of a schema. -/
def applicatorDemands (keywords : Fields) (keyword : String) (value : Part schema) :
    List (Demand (Application schema inst)) :=
  match keyword, inst with
  | "allOf", _ => [.all (alternatives "allOf" value)]
  | "anyOf", _ =>
    [.some (alternatives "anyOf" value) (.about "anyOf" (noneMessage "anyOf" inst))]
  | "oneOf", _ =>
    [.one (alternatives "oneOf" value) (.about "oneOf" (noneMessage "oneOf" inst))
      (.about "oneOf" (severalMessage inst))]
  | "not", _ =>
    [.not (.here ["not"] value)
      (.about "not" (value.value.compact ++ " is not allowed for " ++ inst.compact))]
  | "if", _ => conditionDemands value
  | "properties", .object _ =>
    if restrictsProperties keywords then []
    else
      match value.value with
      | .object properties => [.all (declaredApplications properties)]
      | _ => []
  | "patternProperties", .object _ =>
    if restrictsProperties keywords then []
    else
      match value.value with
      | .object patterns => [.all (patternApplications patterns)]
      | _ => []
  | "additionalProperties", .object fields =>
    match value.value with
    | .bool false => closedDemands keywords fields
    | .object _ => [.all (closedApplications keywords (some value.value))]
    | _ => []
  | "propertyNames", .object fields =>
    match value.value with
    | .bool false =>
      if fields.isEmpty then []
      else [.fails (.about "propertyNames"
        ("False schema does not allow " ++ (Json.object fields).compact))]
    | .object _ =>
      [.names ((Json.object fields).nameParts.map fun name => .inside ["propertyNames"] value.value [] name)]
    | _ => []
  | "dependencies", .object fields => dependencyDemands value fields
  | "items", .array _ =>
    match value.value with
    | .array schemas => [.all (tupleApplications schemas)]
    | sub => if isItemSchema sub then [.all (itemApplications "items" sub 0)] else []
  | "additionalItems", .array items => additionalItemDemands keywords value.value items
  | "contains", .array _ =>
    [.some (itemApplications "contains" value.value 0)
      (.about "contains" ("None of " ++ inst.compact ++ " are valid under the given schema"))]
  | _, _ => []

end

end ApiContract
