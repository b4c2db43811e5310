import ApiContract.Json.References

/-!
# Discriminators

A list of alternatives under `oneOf` may have a discriminator: a property, the tag, whose value says
which alternative is meant. `introduceCases` replaces such a list by cases: the table of the tag's
values is kept under `x-discriminator-cases`, and for each of them `allOf` gets a schema that applies
the alternative if the tag has that value.

* `discriminatorCases?`: the table. Values come from the mapping of the discriminator, else from what
  the alternative allows for the tag, else from the name of the component it refers to.
* `caseGuard`: the conditional schema of one case.
-/

namespace ApiContract

/-- The keyword that holds the alternatives by the value of the tag. -/
def casesKeyword : String := "x-discriminator-cases"

/-! ## Values of the tag -/

/-- The name behind the last slash of a reference. -/
def referencedName? (reference : String) : Option String :=
  match (splitSlashes reference).getLast? with
  | some name => if name.isEmpty then none else some (unescapeStep name)
  | none => none

/-- The texts that a schema of the tag allows. -/
def allowedTags (tagSchema : Json) : List String :=
  match tagSchema.get? "const" with
  | some (.string value) => [value]
  | _ =>
    match tagSchema.get? "enum" with
    | some (.array values) => values.filterMap Json.string?
    | _ => []

/-- The values of the tag that mean an alternative. -/
def branchTags (document : Json) (tag : String) (branch : Json) : List String :=
  let schema := match branch.reference? with
    | some reference => (document.resolve? reference).getD branch
    | none => branch
  let declared := match (schema.get? "properties").bind (·.get? tag) with
    | some tagSchema => allowedTags tagSchema
    | none => []
  if declared.isEmpty then (branch.reference?.bind referencedName?).toList else declared

/-! ## The table of cases -/

/-- The references of a mapping; none if one of its values is no text. -/
def mappingReferences? : Fields → Option (List (String × String))
  | [] => some []
  | (value, .string reference) :: rest =>
    (mappingReferences? rest).map ((value, reference) :: ·)
  | _ :: _ => none

/-- Adds the cases of the alternatives that the mapping does not name. A value that has a case
already keeps it; an alternative without any value makes the table unknown. -/
def addBranches (document : Json) (tag : String) (mapped : List String) :
    Fields → List Json → Option Fields
  | cases, [] => some cases
  | cases, branch :: rest =>
    let isMapped := match branch.reference? with
      | some reference => mapped.contains reference
      | none => false
    if isMapped then addBranches document tag mapped cases rest
    else
      let tags := branchTags document tag branch
      if tags.isEmpty then none
      else
        let more := tags.foldl (fun all value => all.insertIfAbsent value branch) cases
        addBranches document tag mapped more rest

/-- The alternatives by the value of the tag. -/
def discriminatorCases? (document : Json) (tag : String) (mapping : Fields)
    (branches : List Json) : Option Fields :=
  (mappingReferences? mapping).bind fun mapped =>
    let start := Fields.ofList (mapped.map fun entry =>
      (entry.1, .object [("$ref", .string entry.2)]))
    addBranches document tag (mapped.map (·.2)) start branches

/-! ## The schema with cases -/

/-- Applies an alternative to objects whose tag has a value. -/
def caseGuard (tag value : String) (branch : Json) : Json :=
  .object
    [("if", .object
        [("properties", .object [(tag, .object [("const", .string value)])]),
         ("required", .array [.string tag]),
         ("type", .string "object")]),
     ("then", branch)]

/-- The tag of a discriminator. -/
def discriminatorTag? (fields : Fields) : Option String :=
  (fields.get? "discriminator").bind (·.getString? "propertyName")

/-- The mapping of a discriminator; empty if it has none. -/
def discriminatorMapping (fields : Fields) : Fields :=
  (((fields.get? "discriminator").bind (·.get? "mapping")).bind Json.fields?).getD []

/-- A schema with a table of cases in place of its alternatives. -/
def withCases (tag : String) (cases fields : Fields) : Fields :=
  let guards := cases.map fun entry => caseGuard tag entry.1 entry.2
  let rest := fields.erase "oneOf"
  let conditions := match rest.get? "allOf" with
    | some (.array given) => given ++ guards
    | _ => guards
  (rest.insert "allOf" (.array conditions)).insert casesKeyword (.object cases)

/-- A schema with its alternatives replaced by cases, if it has a discriminator and the cases are
known. -/
def schemaWithCases (document : Json) (fields : Fields) : Fields :=
  match discriminatorTag? fields, fields.get? "oneOf" with
  | some tag, some (.array branches) =>
    match discriminatorCases? document tag (discriminatorMapping fields) branches with
    | some cases => withCases tag cases fields
    | none => fields
  | _, _ => fields

mutual

/-- A node with every discriminated list of alternatives in it replaced by cases; `document` is the
document as it was. -/
def nodeWithCases (document : Json) : Json → Json
  | .object fields => .object (schemaWithCases document (fieldsWithCases document fields))
  | .array items => .array (itemsWithCases document items)
  | other => other

def itemsWithCases (document : Json) : List Json → List Json
  | [] => []
  | item :: rest => nodeWithCases document item :: itemsWithCases document rest

def fieldsWithCases (document : Json) : Fields → Fields
  | [] => []
  | (key, value) :: rest =>
    (key, if isDataKeyword key || key == casesKeyword then value else nodeWithCases document value) ::
      fieldsWithCases document rest

end

/-- A document with every discriminated list of alternatives replaced by cases. -/
def introduceCases (document : Json) : Json := nodeWithCases document document

end ApiContract
