import ApiContract.Definition.Decode

/-!
# Error objects

A problem found in a request or a response is told to clients as an error object: a status, a code, a
title, and where it was found.

* `Side`: whose fault it is, which settles the status.
* `ErrorObject`, `ErrorSource`: the object, with `ErrorObject.decode` and `ErrorObject.toJson`.
* `reported`: what a check gives that has found some problems, or none.
-/

namespace ApiContract

/-- Which side of an exchange a problem was found on. -/
inductive Side where
  | request | response
deriving DecidableEq, Repr

/-- A bad request is the client's fault, a bad response the service's. -/
def Side.status : Side → Nat
  | request => 400
  | response => 500

/-- Where a problem was found: a place in a schema, a query parameter. -/
structure ErrorSource where
  pointer : Option String
  parameter : Option String
deriving DecidableEq, Repr

/-- One problem. -/
structure ErrorObject where
  status : Nat
  code : String
  title : String
  detail : Option String
  source : Option ErrorSource
  id : Option String
  links : Option (List (String × String))
deriving DecidableEq, Repr

namespace ErrorObject

/-! ## Building -/

def plain (side : Side) (code title : String) : ErrorObject :=
  ⟨side.status, code, title, none, none, none, none⟩

/-- A problem whose code ends in a word for it. -/
def validation (side : Side) (word title : String) : ErrorObject :=
  plain side ("Validation-" ++ word) title

/-- A problem of which nothing more is known. -/
def generic (side : Side) : ErrorObject := plain side "Validation" "Validation failed"

/-- The source, empty if none was given. -/
def sourceOrEmpty (problem : ErrorObject) : ErrorSource := problem.source.getD ⟨none, none⟩

def withParameter (name : String) (problem : ErrorObject) : ErrorObject :=
  { problem with source := some { problem.sourceOrEmpty with parameter := some name } }

def withPointer (pointer : String) (problem : ErrorObject) : ErrorObject :=
  { problem with source := some { problem.sourceOrEmpty with pointer := some pointer } }

def withDetail (detail : String) (problem : ErrorObject) : ErrorObject :=
  { problem with detail := some detail }

/-! ## As JSON -/

/-- A field that is left out when there is nothing to say. -/
def optionalField (name : String) (text : Option String) : List (String × Json) :=
  text.toList.map fun t => (name, .string t)

def sourceToJson (source : ErrorSource) : Json :=
  .object (optionalField "pointer" source.pointer ++ optionalField "parameter" source.parameter)

/-- The object in the order of its fields. -/
def toJson (problem : ErrorObject) : Json :=
  .object
    ([("status", .ofNat problem.status), ("code", .string problem.code),
      ("title", .string problem.title)] ++
      optionalField "detail" problem.detail ++
      (problem.source.toList.map fun source => ("source", sourceToJson source)) ++
      optionalField "id" problem.id ++
      (problem.links.toList.map fun links =>
        ("links", .object (links.map fun link => (link.1, .string link.2)))))

def decodeSource : Json → Decoded ErrorSource :=
  decodeRecord
    [.defaulted "pointer" (decodeOptional decodeText) fun pointer s => { s with pointer },
     .defaulted "parameter" (decodeOptional decodeText) fun parameter s => { s with parameter }]
    "ErrorSource" ⟨none, none⟩

def decode : Json → Decoded ErrorObject :=
  decodeRecord
    [.needed "status" decodeShortNatural fun status p => { p with status },
     .needed "code" decodeText fun code p => { p with code },
     .needed "title" decodeText fun title p => { p with title },
     .defaulted "detail" (decodeOptional decodeText) fun detail p => { p with detail },
     .defaulted "source" (decodeOptional decodeSource) fun source p => { p with source },
     .defaulted "id" (decodeOptional decodeText) fun id p => { p with id },
     .defaulted "links" (decodeOptional (decodeTable decodeText)) fun links p => { p with links }]
    "ErrorObj" ⟨0, "", "", none, none, none, none⟩

end ErrorObject

/-! ## Reports -/

/-- What a check gives for the problems that it has found: nothing if there are none. -/
def reported (problems : List ErrorObject) : Option (List ErrorObject) :=
  if problems.isEmpty then none else some problems

@[simp] theorem reported_eq_none_iff {problems : List ErrorObject} : reported problems = none ↔ problems = [] := by
  cases problems <;> simp [reported]

@[simp] theorem getD_reported (problems : List ErrorObject) : (reported problems).getD [] = problems := by
  cases problems <;> rfl

theorem eq_of_reported {problems found : List ErrorObject} (h : reported problems = some found) :
    found = problems := by
  rw [← getD_reported problems, h, Option.getD_some]

theorem reported_ne_nil (problems : List ErrorObject) : reported problems ≠ some [] := by
  cases problems <;> simp [reported]

end ApiContract
