import ApiContract.Json.References
import ApiContract.Schema.Applicator
import ApiContract.Schema.Encoded
import ApiContract.Schema.Target

/-!
# Evaluation

`Evaluation.findings` applies a schema to an instance. References lead into the root document.

The walk ends: every application is to a smaller instance, or to a smaller schema for the same instance,
or it follows a reference that has not been followed for this instance yet. A reference met again for
the same instance asks for nothing new and counts as satisfied.

* `Evaluation.findingsWith`: the walk. The findings of a schema with keywords are those of its
  assertions and of its demands, keyword by keyword.
-/

namespace ApiContract

/-! ## Findings -/

namespace Evaluation

/-- The findings of an assertion or of the content of a text. -/
def assertions (keywords : Fields) (keyword : String) (value inst : Json) : List Finding :=
  (assertionFailures keyword value inst).map (Finding.about keyword) ++
    (contentFailures keywords keyword value inst).map fun f => Finding.about f.1 f.2

/-- The finding of the schema that allows nothing. -/
def refusal (inst : Json) : Finding :=
  ⟨[], [], "False schema does not allow " ++ inst.compact⟩

/-- The findings of a schema for an instance. `known` holds the references of the root document, `pool`
those of them that may still be followed for this instance. -/
def findingsWith (root : Json) (known pool : List String) (schema inst : Json) :
    List Finding :=
  match schema with
  | .bool false => [refusal inst]
  | .object keywords =>
    match Fields.get? "$ref" keywords with
    | some (.string reference) =>
      if reference ∈ pool then
        match targetOf root reference with
        | .ok target =>
          (findingsWith root known (withoutReference reference pool) target inst).map
            (Finding.under ["$ref"] [])
        | .error _ => []
      else []
    | _ =>
      let run : Application (.object keywords) inst → List Finding
        | .here steps part =>
          (findingsWith root known pool part.value inst).map (Finding.under steps [])
        | .inside steps sub place part =>
          (findingsWith root known known sub part.value).map (Finding.under steps place)
      (Json.fieldParts (.object keywords)).flatMap fun entry =>
        assertions keywords entry.1 entry.2.value inst ++
          (applicatorDemands keywords entry.1 entry.2).flatMap (Demand.findings run)
  | _ => []
termination_by (sizeOf inst, pool.length, sizeOf schema)
decreasing_by
  · exact Prod.Lex.right _ (Prod.Lex.left _ _ (length_withoutReference_lt (by assumption)))
  · exact Prod.Lex.right _ (Prod.Lex.right _ part.smaller)
  · exact Prod.Lex.left _ _ part.smaller

/-- The findings of a schema of a root document for an instance. -/
def findings (root schema inst : Json) : List Finding :=
  let known := root.references
  findingsWith root known known schema inst

end Evaluation

end ApiContract
