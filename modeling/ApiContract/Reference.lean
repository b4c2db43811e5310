import ApiContract.ContractError
import ApiContract.Definition.Reading
import ApiContract.Json.References

/-!
# References to components

A reference of the form `#/components/{bucket}/{name}` names a component. Only one step is followed: a
component that is itself a reference is an error.

* `Bucket`, `parseComponentReference?`: which component a reference names.
* `Components.lookupRequestBody`, `Components.lookupResponse`, `Components.lookupParameter`: the
  component of the kind that is expected where the reference stands.
* `inlineSchema`: a schema with every reference in it replaced by what it refers to.
-/

namespace ApiContract

/-! ## Component references -/

/-- The parts of `components` that references may name. -/
inductive Bucket where
  | schemas | requestBodies | responses | parameters
deriving DecidableEq, Repr

namespace Bucket

def name : Bucket → String
  | schemas => "schemas"
  | requestBodies => "requestBodies"
  | responses => "responses"
  | parameters => "parameters"

def all : List Bucket := [schemas, requestBodies, responses, parameters]

def ofName? (name : String) : Option Bucket := all.find? (·.name == name)

end Bucket

/-- The bucket and the name of a component reference. -/
def parseComponentReference? (reference : String) : Option (Bucket × String) :=
  match pointerSteps? reference with
  | some ["components", bucket, name] =>
    if name.isEmpty then none else (Bucket.ofName? bucket).map fun b => (b, name)
  | _ => none

/-! ## Lookup -/

/-- The item that a reference found in a bucket stands for. -/
def takeItem {α : Type} : OrReference α → Except ContractError α
  | .item value => .ok value
  | .reference target => .error (.nestedReference target)

/-- The item of a reference to an entry of a bucket. A reference that does not name this bucket cannot
be followed; an entry that could not be read is an invalid definition. -/
def lookupIn {α : Type} (bucket : Bucket) (entries : Components → Table (OrReference α))
    (components : Option Components) (reference : String) : Except ContractError α :=
  match parseComponentReference? reference with
  | none => .error (.unfollowableReference reference)
  | some (named, name) =>
    if named ≠ bucket then .error (.unfollowableReference reference)
    else
      match components with
      | none => .error (.missingReference reference)
      | some given =>
        match (entries given).get? name with
        | some entry => takeItem entry
        | none =>
          match given.invalid.get? (bucket.name ++ "/" ++ name) with
          | some reason => .error (.invalidDefinition reference reason)
          | none => .error (.missingReference reference)

def lookupRequestBody : Option Components → String → Except ContractError RequestBody :=
  lookupIn .requestBodies Components.requestBodies

def lookupResponse : Option Components → String → Except ContractError Response :=
  lookupIn .responses Components.responses

def lookupParameter : Option Components → String → Except ContractError Parameter :=
  lookupIn .parameters Components.parameters

/-- The item in place, or the one that the reference leads to. -/
def OrReference.resolve {α : Type} (lookup : String → Except ContractError α) :
    OrReference α → Except ContractError α
  | .item value => .ok value
  | .reference target => lookup target

/-! ## Inlining -/

mutual

/-- A schema with the references of a pool replaced by what they refer to, each at most once on the
way to any place. -/
def inlineWith (document : Json) (pool : List String) (schema : Json) : Json :=
  match schema with
  | .object fields =>
    match Fields.get? "$ref" fields with
    | some (.string reference) =>
      if reference ∈ pool then
        match document.resolve? reference with
        | some target => inlineWith document (withoutReference reference pool) target
        | none => .object fields
      else .object fields
    | _ => .object (inlineFields document pool fields)
  | .array items => .array (inlineItems document pool items)
  | other => other
termination_by (pool.length, sizeOf schema)
decreasing_by
  · exact Prod.Lex.left _ _ (length_withoutReference_lt (by assumption))
  · exact Prod.Lex.right _ (by simp)
  · exact Prod.Lex.right _ (by simp)

def inlineItems (document : Json) (pool : List String) (items : List Json) : List Json :=
  match items with
  | [] => []
  | item :: rest => inlineWith document pool item :: inlineItems document pool rest
termination_by (pool.length, sizeOf items)
decreasing_by
  · exact Prod.Lex.right _ (by simp only [List.cons.sizeOf_spec]; omega)
  · exact Prod.Lex.right _ (by simp only [List.cons.sizeOf_spec]; omega)

def inlineFields (document : Json) (pool : List String) (fields : Fields) : Fields :=
  match fields with
  | [] => []
  | (key, value) :: rest =>
    (key, if isDataKeyword key then value else inlineWith document pool value) ::
      inlineFields document pool rest
termination_by (pool.length, sizeOf fields)
decreasing_by
  · exact Prod.Lex.right _ (by simp only [List.cons.sizeOf_spec, Prod.mk.sizeOf_spec]; omega)
  · exact Prod.Lex.right _ (by simp only [List.cons.sizeOf_spec]; omega)

end

/-- A schema with every reference replaced by what it refers to. A reference to something that holds
the place itself stays, and so does one that leads nowhere. -/
def inlineSchema (document schema : Json) : Json :=
  inlineWith document (document.references ++ schema.references).eraseDups schema

end ApiContract
