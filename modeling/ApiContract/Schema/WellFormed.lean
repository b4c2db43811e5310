import ApiContract.Json.References
import ApiContract.Schema.Evaluation
import ApiContract.Schema.MetaSchema
import ApiContract.Schema.Requirement

/-!
# Schemas that can be used

`schemaFault?` gives the reason for which a schema is refused: a reference out of the document, a failure
of the schema of schemas, or a keyword, here or behind references, whose value cannot be used.
-/

namespace ApiContract

/-- References that are still to be followed, no more than a number of them. -/
abbrev Pending (limit : Nat) := { pool : List String // pool.length ≤ limit }

/-- Checks the keywords of a schema, and what its references lead to. Every reference is followed once;
those that remain are passed on. -/
def checkKeywords (root : Json) (pool : List String) (schema : Json) :
    Except String (Pending pool.length) :=
  match schema with
  | .bool _ => .ok ⟨pool, Nat.le_refl _⟩
  | .object keywords =>
    match Fields.get? "$ref" keywords with
    | some (.string reference) =>
      if h : reference ∈ pool then
        match targetOf root reference with
        | .ok target => do
          let left ← checkKeywords root (withoutReference reference pool) target
          .ok ⟨left.1, Nat.le_trans left.2 (Nat.le_of_lt (length_withoutReference_lt h))⟩
        | .error e => .error e.message
      else .ok ⟨pool, Nat.le_refl _⟩
    | some other => .error (Assertion.typeMessage ["string"] other)
    | none =>
      let requirements := (Json.fieldParts (.object keywords)).flatMap fun entry =>
        keywordRequirements keywords entry.1 entry.2
      requirements.foldlM (fun (left : Pending pool.length) requirement =>
        match requirement with
        | .refuses reason => .error reason
        | .holds part => do
          let next ← checkKeywords root left.1 part.value
          .ok ⟨next.1, Nat.le_trans next.2 left.2⟩) ⟨pool, Nat.le_refl _⟩
  | other => .error (Assertion.typeMessage ["boolean", "object"] other)
termination_by (pool.length, sizeOf schema)
decreasing_by
  · exact Prod.Lex.left _ _ (length_withoutReference_lt h)
  · rcases Nat.lt_or_eq_of_le left.2 with hlt | heq
    · exact Prod.Lex.left _ _ hlt
    · rw [heq]
      exact Prod.Lex.right _ part.smaller

/-- What a schema fails of the schema of schemas first. -/
def metaFault? (schema : Json) : Option String :=
  (Evaluation.findings metaSchema metaSchema schema).head?.map Finding.message

/-- What is wrong with a keyword, here or behind references. -/
def keywordFault? (root : Json) : Option String :=
  match checkKeywords root root.references root with
  | .ok _ => none
  | .error reason => some reason

/-- The reason for which a root schema is refused. -/
def schemaFault? (root : Json) : Option String :=
  foreignFault? root <|> metaFault? root <|> keywordFault? root

end ApiContract
