import ApiContract.Json.Basic

/-!
# Findings

A finding says that a part of an instance fails a keyword of a part of a schema. Both parts are given by
the steps that lead to them, from wherever the schema was applied to the instance.
-/

namespace ApiContract

/-- One way in which an instance fails a schema. -/
structure Finding where
  /-- The steps to the keyword that failed. -/
  schemaSteps : List String
  /-- The steps to the part of the instance that failed it. -/
  instanceSteps : List String
  message : String
deriving DecidableEq, Repr

namespace Finding

/-- A finding about an instance itself. -/
def about (keyword message : String) : Finding := ⟨[keyword], [], message⟩

/-- A finding as seen from where a part of the schema was applied to a part of the instance. -/
def under (schemaSteps instanceSteps : List String) (finding : Finding) : Finding :=
  ⟨schemaSteps ++ finding.schemaSteps, instanceSteps ++ finding.instanceSteps, finding.message⟩

/-- A finding about a name of an object, told of the object. -/
def ofName (finding : Finding) : Finding := { finding with instanceSteps := [] }

end Finding

end ApiContract
