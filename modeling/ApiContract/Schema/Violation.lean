import ApiContract.Problem

/-!
# Violations

A violation says that a part of an instance does not satisfy a part of a schema. Clients get it as an
error object, by `ErrorObject.ofViolations`.
-/

namespace ApiContract

/-- One way in which an instance fails a schema. -/
structure Violation where
  /-- The keyword that failed. -/
  keyword : Option String
  message : String
  /-- Where the keyword stands: behind the name of the schema, or behind the last reference that was
  followed. -/
  schemaPointer : Option String
  /-- Where the failing part of the instance is; empty for the instance itself. -/
  instancePath : String
deriving DecidableEq, Repr

/-- A violation on one line. -/
def Violation.text (violation : Violation) : String :=
  let place := if violation.instancePath.isEmpty then "/" else violation.instancePath
  let schema := match violation.schemaPointer with
    | some pointer => " (schema: " ++ pointer ++ ")"
    | none => ""
  place ++ ": " ++ violation.message ++ schema

namespace ErrorObject

/-- The error object of a violation. -/
def ofViolation (side : Side) (violation : Violation) : ErrorObject :=
  let title := if violation.message.isEmpty then "Validation failed" else violation.message
  let start := match violation.keyword with
    | some keyword => validation side keyword title
    | none => plain side "Validation" title
  let pointed := match violation.schemaPointer with
    | some pointer => start.withPointer pointer
    | none => start
  if violation.instancePath.isEmpty then pointed else pointed.withDetail violation.instancePath

/-- One error object per violation; a failure without violations still gives one. -/
def ofViolations (side : Side) : List Violation → List ErrorObject
  | [] => [generic side]
  | violations => violations.map (ofViolation side)

end ErrorObject

end ApiContract
