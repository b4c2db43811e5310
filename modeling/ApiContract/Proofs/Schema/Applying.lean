import ApiContract.Proofs.Schema.Walking
import ApiContract.Proofs.Schema.Cases

/-! # What evaluation applies

Evaluation applies schemas to an instance and to its parts: the alternatives of a keyword one by one, a
condition, and the schemas for the outcome that the condition has. What the keywords apply is said as a
relation between spots.

* `Demand.Applies`: the applications that a demand carries out.
* `EvaluationStep`, `Applied`: from a spot to those that evaluation applies there, and all of them.
* `EvaluationStep.condition`: a condition that succeeds, and the schema for this outcome.
* `Required`: the applications that have to succeed, whatever the others do.
* `required_conjunct` and its kin: which schemas are required for the instance and its parts. -/

set_option autoImplicit false

namespace ApiContract

/-! ## Applications -/

/-- The applications that a demand carries out, where `passes` tells which of them succeed. -/
def Demand.Applies {α : Type} (passes : α → Prop) : Demand α → α → Prop
  | fails _, _ => False
  | all applications, a => a ∈ applications
  | some applications _, a => a ∈ applications
  | one applications _ _, a => a ∈ applications
  | not application _, a => a = application
  | branch test yes no, a => a = test ∨ (passes test ∧ a ∈ yes) ∨ (¬ passes test ∧ a ∈ no)
  | names applications, a => a ∈ applications

namespace Spot

/-- The spot to which an application leads. -/
def apply (known : List String) (spot : Spot) {schema : Json} : Application schema spot.value → Spot
  | .here _ part => ⟨spot.pool, spot.path, part.value, spot.value⟩
  | .inside _ sub inner part => ⟨known, spot.path ++ inner, sub, part.value⟩

/-- Whether evaluation finds nothing in an application at a spot. -/
def Succeeds (root : Json) (known : List String) (spot : Spot) {schema : Json} :
    Application schema spot.value → Prop :=
  Application.Passes (fun sub => Evaluation.Passes root known spot.pool sub spot.value)
    (Evaluation.Passes root known known)

end Spot

/-- Evaluation goes from a spot to another one: along a reference, or by an application that a keyword
asks for. -/
inductive EvaluationStep (root : Json) (known : List String) (spot : Spot) : Spot → Prop where
  | reference {reference : String} {target : Json} (href : spot.schema.reference? = some reference)
    (hpool : reference ∈ spot.pool) (htarget : targetOf root reference = .ok target) :
    EvaluationStep root known spot
      ⟨withoutReference reference spot.pool, spot.path, target, spot.value⟩
  | application {keywords : Fields} {key : String} {value : Part (.object keywords)}
    {demand : Demand (Application (.object keywords) spot.value)}
    {a : Application (.object keywords) spot.value} (hschema : spot.schema = .object keywords)
    (href : spot.schema.reference? = none) (hentry : (key, value) ∈ Json.fieldParts (.object keywords))
    (hdemand : demand ∈ applicatorDemands keywords key value)
    (ha : demand.Applies (spot.Succeeds root known) a) :
    EvaluationStep root known spot (spot.apply known a)

/-- Where a condition succeeds, evaluation goes on to the schema for this outcome. -/
theorem EvaluationStep.condition {root : Json} {known : List String} {spot : Spot} {keywords : Fields}
    {test yes : Json} (hschema : spot.schema = .object keywords)
    (href : spot.schema.reference? = none) (hif : keywords.get? "if" = some test)
    (hthen : (Json.object keywords).get? "then" = some yes)
    (htest : Evaluation.Passes root known spot.pool test spot.value) :
    EvaluationStep root known spot ⟨spot.pool, spot.path, yes, spot.value⟩ := by
  obtain ⟨given, rfl, hentry⟩ := exists_fieldPart rfl (Fields.mem_of_get? hif)
  have hsmaller := Json.sizeOf_get?_lt hthen
  have hyes : (Json.object keywords).part? "then" = some ⟨yes, hsmaller⟩ := Json.part?_eq_some.2 hthen
  have hdemand : Demand.branch (.here ["if"] given) [.here ["then"] ⟨yes, hsmaller⟩]
      (((Json.object keywords).part? "else").toList.map fun part => .here ["else"] part) ∈
        (applicatorDemands keywords "if" given :
          List (Demand (Application (.object keywords) spot.value))) := by
    show _ ∈ conditionDemands given
    simp [conditionDemands, hyes]
  have hstep : EvaluationStep root known spot
      (spot.apply known (.here ["then"] (⟨yes, hsmaller⟩ : Part (.object keywords)))) :=
    .application hschema href hentry hdemand (Or.inr (.inl ⟨htest, List.mem_singleton.2 rfl⟩))
  exact hstep

/-- Evaluation of a root schema on an instance applies a schema to a part of the instance. -/
def Applied (root inst : Json) : Spot → Prop :=
  Relation.ReflTransGen (EvaluationStep root root.references) ⟨root.references, [], root, inst⟩

/-! ## Required applications -/

/-- An application that a keyword asks to succeed. -/
def Required (keywords : Fields) (inst : Json) (a : Application (.object keywords) inst) : Prop :=
  ∃ key, ∃ value : Part (.object keywords), (key, value) ∈ Json.fieldParts (.object keywords) ∧
    ∃ applications, .all applications ∈ applicatorDemands keywords key value ∧ a ∈ applications

section

variable {keywords : Fields} {inst sub : Json} {known : List String}

theorem Required.step {root : Json} {spot : Spot} {a : Application (.object keywords) spot.value}
    (h : Required keywords spot.value a) (hschema : spot.schema = .object keywords)
    (href : spot.schema.reference? = none) :
    EvaluationStep root known spot (spot.apply known a) := by
  obtain ⟨key, value, hentry, applications, hdemand, ha⟩ := h
  exact .application hschema href hentry hdemand ha

/-- A demand of a keyword that is present requires its applications. -/
theorem required_of_get? {key : String} {given : Json} (hkey : keywords.get? key = some given)
    {a : Application (.object keywords) inst}
    (h : ∀ value : Part (.object keywords), value.value = given →
      ∃ applications, .all applications ∈ applicatorDemands keywords key value ∧ a ∈ applications) :
    Required keywords inst a := by
  obtain ⟨value, hvalue, hentry⟩ := exists_fieldPart rfl (Fields.mem_of_get? hkey)
  exact ⟨key, value, hentry, h value hvalue⟩

/-- The schema that `properties` gives a member is required for it. -/
theorem required_property {fields : Fields} {name : String} {part : Part (.object fields)}
    (ho : fields.Ordered) (hpart : (name, part) ∈ Json.fieldParts (.object fields))
    (hsub : declaredProperty? keywords name = some sub) :
    Required keywords (.object fields) (.inside ["properties", name] sub [name] part) := by
  obtain ⟨properties, hproperties, hget⟩ := declaredProperty?_eq_some.1 hsub
  have hclosed : ∀ rest, (Application.inside ["properties", name] sub [name] part :
      Application (.object keywords) (.object fields)) ∈ closedApplications keywords rest := by
    intro rest
    refine List.mem_flatMap.2 ⟨(name, part), hpart, ?_⟩
    simp [propertyApplications, hsub]
  cases hrestricts : restrictsProperties keywords with
  | false =>
    refine required_of_get? hproperties fun value hvalue => ⟨declaredApplications properties, ?_, ?_⟩
    · obtain ⟨given, hsmaller⟩ := value
      cases hvalue
      show Demand.all (declaredApplications properties) ∈
        (if restrictsProperties keywords then []
          else [Demand.all (declaredApplications properties)] :
            List (Demand (Application (.object keywords) (.object fields))))
      rw [hrestricts, if_neg (by simp)]
      exact List.mem_singleton.2 rfl
    · have hvalue : Json.part? (.object fields) name = some part :=
        Json.part?_eq_some.2 (Fields.get?_of_mem ho (mem_fieldParts_object.1 hpart))
      refine List.mem_flatMap.2 ⟨(name, sub), Fields.mem_of_get? hget, ?_⟩
      simp [hvalue]
  | true =>
    cases hextra : keywords.get? "additionalProperties" with
    | none =>
      rw [restrictsProperties, hextra] at hrestricts
      cases hrestricts
    | some given =>
      refine required_of_get? hextra fun value hvalue => ?_
      obtain ⟨held, hsmaller⟩ := value
      cases hvalue
      cases held with
      | object extra => exact ⟨_, List.mem_singleton.2 rfl, hclosed _⟩
      | bool b =>
        cases b with
        | true =>
          rw [restrictsProperties, hextra] at hrestricts
          cases hrestricts
        | false =>
          have hkey : keywords.hasKey "properties" = true := Fields.hasKey_iff.2 ⟨_, hproperties⟩
          refine ⟨closedApplications keywords none, ?_, hclosed none⟩
          show _ ∈ closedDemands keywords fields
          unfold closedDemands
          rw [if_pos (by simp [hkey])]
          exact List.mem_cons_self ..
      | _ =>
        rw [restrictsProperties, hextra] at hrestricts
        cases hrestricts

end

end ApiContract
