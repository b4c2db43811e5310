import ApiContract.Json.References
import ApiContract.Schema.Finding

/-!
# Places in a schema

Clients are told where in a schema a keyword stands: behind the name under which the schema was compiled,
or behind the last reference that was followed on the way.

* `segmentsText`, `pointerText`: segments and steps as a pointer.
* `SchemaPlace`: a base and the steps behind it, with `SchemaPlace.text`.
* `schemaPointerOf`: the place to which a path leads from the root.
* `keywordOf?`: the keyword at the end of steps.
-/

namespace ApiContract

/-- Segments as a pointer, as they are written. -/
def segmentsText (segments : List String) : String :=
  String.join (segments.map fun segment => "/" ++ segment)

/-- Steps as a pointer. -/
def pointerText (steps : List String) : String :=
  String.join (steps.map fun step => "/" ++ escapeStep step)

/-- The last of the steps that is no place in a list. -/
def keywordOf? (steps : List String) : Option String :=
  steps.reverse.find? fun step => !step.isEmpty && (indexOfStep? step).isNone

/-- A place in a schema. -/
structure SchemaPlace where
  /-- The name of the schema, or a reference. -/
  base : String
  steps : List String
deriving DecidableEq, Repr

namespace SchemaPlace

def text (place : SchemaPlace) : String := place.base ++ pointerText place.steps

/-- A place further along. -/
def child (place : SchemaPlace) (steps : List String) : SchemaPlace :=
  ⟨place.base, place.steps ++ steps⟩

end SchemaPlace

/-! ## Walking -/

/-- A place that a path has reached. -/
structure Reached where
  /-- The name of the schema, or the last reference that was followed. -/
  base : String
  /-- The segments behind the base, as the path has them. -/
  segments : List String
  /-- The value at the place, if there is one. -/
  value : Option Json

namespace Reached

def text (reached : Reached) : String := reached.base ++ segmentsText reached.segments

/-- Where the reference at a place leads to. -/
def follow? (root : Json) (reached : Reached) : Option Reached :=
  (reached.value.bind Json.reference?).map fun reference =>
    ⟨reference, [], root.resolve? reference⟩

/-- The part of the value that a segment names. -/
def part? (reached : Reached) (segment : String) : Option Json :=
  reached.value.bind fun value => value.child? (unescapeStep segment)

/-- The place that a segment names. -/
def child (reached : Reached) (segment : String) : Reached :=
  ⟨reached.base, reached.segments ++ [segment], reached.part? segment⟩

/-- Goes one segment. A segment to a reference follows it, and so does a segment that is not there but
may be behind the reference. -/
def next (root : Json) (reached : Reached) (segment : String) : Reached :=
  if segment = "$ref" then (reached.follow? root).getD (reached.child segment)
  else if (reached.part? segment).isSome then reached.child segment
  else ((reached.follow? root).getD reached).child segment

end Reached

/-- The pointer to the place to which a path leads from the root of a named schema. Empty segments lead
nowhere else. -/
def schemaPointerOf (root : Json) (name path : String) : String :=
  let segments := (splitSlashes path).filter fun segment => !segment.isEmpty
  (segments.foldl (Reached.next root) ⟨name, [], some root⟩).text

end ApiContract
