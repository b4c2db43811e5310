import ApiContract.Json.References

/-!
# Flat compositions

An object with a list under `allOf` composes a schema of fragments. `flattenCompositions` merges the
fragments into the object, so that it is one schema with all its properties in one place.

* `mergeFields`, `mergeSchemas`: a schema with another one merged into it.
* `flattenNode?`, `resolveFragment?`: the walk over the document. A fragment may be a reference; it is
  looked up in the document as it was, and flattened before it is merged.

A composition that cannot be merged stays. The walk is bounded, since a composition that holds itself
could be unfolded for ever.
-/

namespace ApiContract

/-! ## Merging -/

/-- Adds the names that are not there yet at the end of a list. -/
def mergeRequired (names : List Json) (more : List Json) : List Json :=
  more.foldl (fun all name => if Json.isAmong name all then all else all ++ [name]) names

/-- A keyword of a fragment, other than the properties, merged into a schema: keywords that are there
already win, lists of required names are joined, and two different types cannot be merged. A
discriminator and a closure of the fragment are left out. -/
def mergeKeyword (target : Fields) (key : String) (value : Json) : Option Fields :=
  if key = "required" then
    match (target.get? "required").getD (.array []), value with
    | .array names, .array more => some (target.insert "required" (.array (mergeRequired names more)))
    | _, _ => none
  else if key = "type" then
    match target.get? "type" with
    | some type => if type.same value then some target else none
    | none => some (target.insert "type" value)
  else if key = "discriminator" then some target
  else if key = "additionalProperties" && value.same (.bool false) then some target
  else some (target.insertIfAbsent key value)

/-- Two schemas that both have to hold, as a composition. -/
def composed (a b : Json) : Json := .object [("allOf", .array [a, b])]

mutual

/-- The keywords of a fragment merged into a schema; none when they do not fit together. -/
def mergeFields (target : Fields) : Fields → Option Fields
  | [] => some target
  | (key, value) :: rest =>
    if key = "properties" then
      match (target.get? "properties").getD (.object []), value with
      | .object properties, .object more =>
        mergeFields (target.insert "properties" (.object (mergeProperties properties more))) rest
      | _, _ => none
    else (mergeKeyword target key value).bind fun merged => mergeFields merged rest

/-- The properties of a fragment merged into those of a schema. -/
def mergeProperties (properties : Fields) : Fields → Fields
  | [] => properties
  | (name, schema) :: rest =>
    let both := match properties.get? name with
      | some existing => mergeSchemas existing schema
      | none => schema
    mergeProperties (properties.insert name both) rest

/-- Two schemas of one property as one schema; a composition of both when they cannot be merged. -/
def mergeSchemas (a b : Json) : Json :=
  match a, b with
  | .object left, .object right =>
    if Fields.hasKey left "$ref" || Fields.hasKey right "$ref" then composed a b
    else
      match mergeFields left right with
      | some merged => .object merged
      | none => composed a b
  | _, _ => composed a b

end

/-! ## The walk -/

/-- The fields of a flattened fragment that is no composition any more. -/
def flatFragment? : Json → Option Fields
  | .object fields => if Fields.hasKey fields "allOf" then none else some fields
  | _ => none

mutual

/-- A node with every composition in it flattened. `document` is the document as it was, `followed`
holds the references that led here; nothing when `depth` is used up. -/
def flattenNode? (document : Json) : Nat → List String → Json → Option Json
  | 0, _, _ => none
  | depth + 1, followed, node =>
    let merged : Option Json :=
      match node with
      | .object fields =>
        match Fields.get? "allOf" fields with
        | some (.array fragments) =>
          let mergeNext (merged : Option Fields) (fragment : Json) : Option (Option Fields) :=
            match merged with
            | none => some none
            | some target =>
              (resolveFragment? document depth followed fragment).map fun resolved =>
                resolved.bind (mergeFields target)
          (fragments.foldlM mergeNext (some (Fields.erase "allOf" fields))).map fun flat =>
            match flat with
            | some keywords => .object keywords
            | none => node
        | _ => some node
      | _ => some node
    merged.bind fun flat =>
      match flat with
      | .object fields =>
        (fields.mapM fun field =>
          if isDataKeyword field.1 then some field
          else (flattenNode? document depth followed field.2).map fun v => (field.1, v)).map .object
      | .array items =>
        (items.mapM fun item => flattenNode? document depth followed item).map .array
      | other => some other

/-- The flattened keywords of a fragment, behind the references it consists of. The inner option tells
whether there are any. -/
def resolveFragment? (document : Json) : Nat → List String → Json → Option (Option Fields)
  | 0, _, _ => none
  | depth + 1, followed, fragment =>
    match fragment.reference? with
    | some reference =>
      if reference ∈ followed then some none
      else
        match document.resolve? reference with
        | some target => resolveFragment? document depth (reference :: followed) target
        | none => some none
    | none => (flattenNode? document depth followed fragment).map flatFragment?

end

/-! ## Documents -/

mutual

/-- The number of values in a value. -/
def Json.nodeCount : Json → Nat
  | .object fields => Json.nodeCountOfFields fields + 1
  | .array items => Json.nodeCountOfItems items + 1
  | _ => 1

def Json.nodeCountOfItems : List Json → Nat
  | [] => 0
  | item :: rest => Json.nodeCount item + Json.nodeCountOfItems rest

def Json.nodeCountOfFields : Fields → Nat
  | [] => 0
  | (_, value) :: rest => Json.nodeCount value + Json.nodeCountOfFields rest

end

/-- How deep the walk may go. A walk that goes deeper counts as one that does not end. -/
def flattenDepth (document : Json) : Nat := Nat.pow (document.nodeCount + 2) 8

/-- A document with every composition in it flattened; the document as it is, where the walk goes too deep. -/
def flattenCompositions (document : Json) : Json :=
  (flattenNode? document (flattenDepth document) [] document).getD document

end ApiContract
