import ApiContract.Preparation.Discriminator
import ApiContract.Schema.Applicator
import ApiContract.Schema.Place
import ApiContract.Schema.Violation

/-!
# The guard of discriminated schemas

A discriminated schema applies the case that the tag of an object selects. To an object that selects
none no case applies, and nothing fails; the guard reports these objects.

* `reachesDiscriminator`: whether there is a discriminated schema to be guarded.
* `guardViolations`: the values that select no case, wherever the schema leads along with the instance.
-/

namespace ApiContract

/-! ## Reaching -/

/-- References that a search has not followed, no more than a number of them. -/
abbrev Unvisited (limit : Nat) := { pool : List String // pool.length ≤ limit }

/-- Searches a value and everything that its references lead to, each reference once. The search ends
early, without a result, when it finds a discriminated schema; else it gives the references that it did
not meet. -/
def searchCases (root : Json) (pool : List String) (value : Json) :
    Option (Unvisited pool.length) :=
  match value with
  | .object fields =>
    if Fields.hasKey fields casesKeyword then none
    else
      let inside (left : Unvisited pool.length) : Option (Unvisited pool.length) :=
        (Json.fieldParts (.object fields)).foldlM (fun left entry =>
          if isDataKeyword entry.1 then some left
          else
            (searchCases root left.1 entry.2.value).map fun next =>
              ⟨next.1, Nat.le_trans next.2 left.2⟩) left
      match (Json.object fields).reference? with
      | none => inside ⟨pool, Nat.le_refl _⟩
      | some reference =>
        if h : reference ∈ pool then
          have shorter := length_withoutReference_lt h
          match root.resolve? reference with
          | none => inside ⟨withoutReference reference pool, Nat.le_of_lt shorter⟩
          | some target =>
            (searchCases root (withoutReference reference pool) target).bind fun left =>
              inside ⟨left.1, Nat.le_trans left.2 (Nat.le_of_lt shorter)⟩
        else some ⟨pool, Nat.le_refl _⟩
  | .array items =>
    (Json.itemParts (.array items)).foldlM (fun (left : Unvisited pool.length) part =>
      (searchCases root left.1 part.value).map fun next =>
        ⟨next.1, Nat.le_trans next.2 left.2⟩) ⟨pool, Nat.le_refl _⟩
  | _ => some ⟨pool, Nat.le_refl _⟩
termination_by (pool.length, sizeOf value)
decreasing_by
  · rcases Nat.lt_or_eq_of_le left.2 with hlt | heq
    · exact Prod.Lex.left _ _ hlt
    · rw [heq]
      exact Prod.Lex.right _ entry.2.smaller
  · exact Prod.Lex.left _ _ shorter
  · rcases Nat.lt_or_eq_of_le left.2 with hlt | heq
    · exact Prod.Lex.left _ _ hlt
    · rw [heq]
      exact Prod.Lex.right _ part.smaller

/-- A root schema without the components beside it. -/
def withoutComponents : Json → Json
  | .object fields => .object (Fields.erase "components" fields)
  | other => other

/-- Whether a root schema leads to a discriminated schema. Components count only if references lead to
them. -/
def reachesDiscriminator (root : Json) : Bool :=
  (searchCases root root.references (withoutComponents root)).isNone

/-! ## Selecting a case -/

/-- The cases of a discriminated schema, and its tag. -/
def casesAndTag? (schema : Json) : Option (Part schema × String) :=
  match schema.part? casesKeyword with
  | none => none
  | some cases =>
    if cases.value.isObject then
      ((schema.get? "discriminator").bind (·.getString? "propertyName")).map fun tag =>
        (cases, tag)
    else none

/-- What the tag of an instance selects. -/
inductive Selection (schema : Json) where
  /-- The schema has no cases. -/
  | nothing
  | case (value : String) (branch : Part schema)
  /-- No case is selected. -/
  | fault (message : String)

/-- The case of a schema that an instance selects. -/
def selection (schema inst : Json) : Selection schema :=
  match casesAndTag? schema with
  | none => .nothing
  | some (cases, tag) =>
    match inst.getString? tag with
    | none => .fault ("tag \"" ++ tag ++ "\" must be string")
    | some value =>
      match cases.value.part? value with
      | some branch => .case value (cases.inner branch)
      | none => .fault ("value of tag \"" ++ tag ++ "\" must be in oneOf")

/-! ## Walking -/

section

variable {schema inst : Json}

/-- The schemas of `allOf` that have no condition. -/
def unconditional : List (Application schema inst) :=
  (schema.part? "allOf").toList.flatMap fun list =>
    ((numbered list.items).filter fun item => (item.2.value.get? "if").isNone).map fun item =>
      .here ["allOf", naturalText item.1] item.2

/-- The schema of a property, or the one for further properties. -/
def propertySchema? (schema : Json) (name : String) : Option (List String × Json) :=
  match (schema.get? "properties").bind (·.get? name) with
  | some sub => some (["properties", name], sub)
  | none =>
    match schema.get? "additionalProperties" with
    | some (.object fields) => some (["additionalProperties"], .object fields)
    | _ => none

/-- The schemas for the parts of an instance. -/
def guardedParts : List (Application schema inst) :=
  let fields := inst.fieldParts.flatMap fun field =>
    (propertySchema? schema field.1).toList.map fun sub =>
      Application.inside sub.1 sub.2 [field.1] field.2
  let items := match schema.get? "items" with
    | some (.object keywords) => itemApplications "items" (.object keywords) 0
    | some (.array schemas) => tupleApplications schemas
    | _ => []
  fields ++ items

end

/-- The violations of the discriminated schemas that an instance passes through. `known` holds the
references of the root document, `pool` those of them that may still be followed for this instance. -/
def guardWith (root : Json) (known pool : List String) (place : SchemaPlace) (path : List String)
    (schema inst : Json) : List Violation :=
  if schema.isObject then
    match schema.reference? with
    | some reference =>
      if reference ∈ pool then
        match root.resolve? reference with
        | some target =>
          guardWith root known (withoutReference reference pool) ⟨reference, []⟩ path target inst
        | none => []
      else []
    | none =>
      let run : Application schema inst → List Violation
        | .here steps part => guardWith root known pool (place.child steps) path part.value inst
        | .inside steps sub inner part =>
          guardWith root known known (place.child steps) (path ++ inner) sub part.value
      let selected := match selection schema inst with
        | .nothing => []
        | .case value branch => run (.here [casesKeyword, value] branch)
        | .fault message =>
          [⟨some "discriminator", message, some (place.child ["discriminator"]).text,
            pointerText path⟩]
      selected ++ unconditional.flatMap run ++ guardedParts.flatMap run
  else []
termination_by (sizeOf inst, pool.length, sizeOf schema)
decreasing_by
  · exact Prod.Lex.right _ (Prod.Lex.left _ _ (length_withoutReference_lt (by assumption)))
  · exact Prod.Lex.right _ (Prod.Lex.right _ part.smaller)
  · exact Prod.Lex.left _ _ part.smaller

/-- The violations of discriminated schemas, from the root of a named schema on. -/
def guardViolations (root : Json) (name : String) (inst : Json) : List Violation :=
  let known := root.references
  guardWith root known known ⟨name, []⟩ [] root inst

end ApiContract
