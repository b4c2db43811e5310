import ApiContract.Proofs.Schema.Cases

/-! # Values that select no case

A schema with cases lets a value pass that selects none of them; to refuse it is left to the guard.
So such a value is refused exactly as far as the way of the guard, or the other keywords of the schema,
lead to a refusal.

* `CompiledSchema.rejects_unselected_iff`: when a value that selects no case is refused. -/

set_option autoImplicit false

namespace ApiContract

/-! ## One alternative -/

/-- Alternatives with a discriminator, of which there is one. -/
def taggedAlternatives : Fields :=
  [("discriminator", .object [("propertyName", .string "kind")]),
    ("oneOf", .array [.object [("properties", .object [("kind", .object [("const", .string "a")])]),
      ("type", .string "object")]])]

/-- The table of its cases. -/
def taggedCases : Fields :=
  [("a", .object [("properties", .object [("kind", .object [("const", .string "a")])]),
    ("type", .string "object")])]

/-- A schema that allows nothing but what these alternatives allow. -/
def alternativesOrNothing : Fields :=
  [("anyOf", .array [.object (withCases "kind" taggedCases taggedAlternatives), .bool false])]

theorem taggedAlternatives_not_reference (reference : String) :
    taggedAlternatives.get? "$ref" ≠ some (.string reference) := by
  simp [taggedAlternatives, Fields.get?_cons]

theorem taggedAlternatives_ordered : (Json.object taggedAlternatives).ordered = true := by
  decide

theorem taggedCases_ordered : (Json.object taggedCases).ordered = true := by
  decide

theorem taggedAlternatives_withCases (document : Json) :
    schemaWithCases document taggedAlternatives =
      withCases "kind" taggedCases taggedAlternatives := rfl

theorem passes_alternativesOrNothing {root inst : Json} {known pool : List String}
    (hinst : inst.ordered = true) :
    Evaluation.Passes root known pool (.object alternativesOrNothing) inst ↔
      Evaluation.Passes root known pool
        (.object (withCases "kind" taggedCases taggedAlternatives)) inst := by
  have hordered : (Json.object alternativesOrNothing).ordered = true := by
    have hcases : (Json.object (withCases "kind" taggedCases taggedAlternatives)).ordered = true :=
      ordered_withCases taggedAlternatives_ordered taggedCases_ordered
    rw [alternativesOrNothing, Json.ordered_object, List.forall_mem_singleton, Json.ordered_array,
      List.forall_mem_cons, List.forall_mem_singleton]
    exact ⟨List.pairwise_singleton .., hcases, rfl⟩
  rw [Evaluation.passes_iff_fulfils hordered hinst (by simp [alternativesOrNothing, Fields.get?_cons]),
    fulfils_of_inPlace (by simp [alternativesOrNothing, inPlaceKeywords])]
  simp [alternativesOrNothing, Fields.get?_cons, listed, Json.items?, Evaluation.not_passes_false]

theorem alternativesOrNothing_unguarded {root inst : Json} {known pool : List String} :
    ¬ Faulty root known pool (.object alternativesOrNothing) inst :=
  not_faulty_of_unguarded (by simp [guardKeywords, alternativesOrNothing, Fields.get?_cons, casesKeyword])

theorem alternativesOrNothing_references :
    (Json.object alternativesOrNothing).references = [] := by decide +kernel

theorem passes_otherKeywords {root inst : Json} {known pool : List String}
    (hinst : inst.ordered = true) :
    Evaluation.Passes root known pool (.object (taggedAlternatives.erase "oneOf")) inst := by
  have herase : taggedAlternatives.erase "oneOf" =
      [("discriminator", .object [("propertyName", .string "kind")])] := rfl
  have hordered := ordered_erase taggedAlternatives_ordered "oneOf"
  rw [herase] at hordered ⊢
  rw [Evaluation.passes_iff_fulfils hordered hinst (by simp [Fields.get?_cons]),
    fulfils_of_plain (isPlain_of_keys (by simp [furtherKeywords])),
    Fields.forall_get?_iff (Json.ordered_object.1 hordered).1, List.forall_mem_singleton]
  refine ⟨Assertion.holds_of_not_mem (by decide), by simp [Fields.get?_cons], ?_, ?_⟩
  · intro fields _ name value _ sub hsub
    simp [propertySchemaOf?, declaredProperty?, Fields.get?_cons] at hsub
  · intro items _ i item _ sub hsub
    simp [itemSchema?, Fields.get?_cons] at hsub

theorem findings_alternativesOrNothing {inst : Json} (hinst : inst.ordered = true) :
    Evaluation.findings (.object alternativesOrNothing) (.object alternativesOrNothing) inst = [] ↔
      Evaluation.Passes (.object alternativesOrNothing) (Json.object alternativesOrNothing).references
        [] (.object (withCases "kind" taggedCases taggedAlternatives)) inst := by
  rw [Evaluation.findings, alternativesOrNothing_references]
  exact passes_alternativesOrNothing hinst

theorem emptyObject_unselected (text : String)
    (h : (Json.object []).getString? "kind" = some text) : taggedCases.get? text = none := by
  cases h

/-! ## Values that select no case -/

theorem Evaluation.passes_unselected {root value : Json} {known pool : List String} {tag : String}
    {cases base : Fields} (hbase : (Json.object base).ordered = true)
    (hcases : (Json.object cases).ordered = true) (hvalue : value.ordered = true)
    (href : ∀ reference, base.get? "$ref" ≠ some (.string reference))
    (hunselected : ∀ text, value.getString? tag = some text → cases.get? text = none) :
    Passes root known pool (.object (withCases tag cases base)) value ↔
      Passes root known pool (.object (base.erase "oneOf")) value := by
  rw [passes_withCases hbase hcases hvalue href]
  refine and_iff_left fun text branch htext hbranch => ?_
  rw [hunselected text htext] at hbranch
  cases hbranch

/-- Where an instance is accepted exactly if a schema with cases lets a value pass that selects none, it
is refused exactly if the value fails the other keywords or the guard meets a fault on its own way. -/
theorem CompiledSchema.rejects_unselected_iff (schema : CompiledSchema) {inst value : Json}
    {pool : List String} {tag : String} {cases base : Fields}
    (hbase : (Json.object base).ordered = true) (hcases : (Json.object cases).ordered = true)
    (hvalue : value.ordered = true)
    (href : ∀ reference, base.get? "$ref" ≠ some (.string reference))
    (hunselected : ∀ text, value.getString? tag = some text → cases.get? text = none)
    (hdepends : Evaluation.findings schema.root schema.root inst = [] ↔
      Evaluation.Passes schema.root schema.root.references pool
        (.object (withCases tag cases base)) value) :
    schema.accepts inst = false ↔
      ¬ Evaluation.Passes schema.root schema.root.references pool
          (.object (base.erase "oneOf")) value ∨
        schema.isDiscriminated = true ∧
          Faulty schema.root schema.root.references schema.root.references schema.root inst := by
  rw [← Bool.not_eq_true, schema.accepts_iff, hdepends,
    Evaluation.passes_unselected hbase hcases hvalue href hunselected, Classical.not_and_iff_not_or_not,
    Classical.not_imp, Classical.not_not]

theorem emptyObject_rejected_iff :
    CompiledSchema.accepts ⟨"#/x", .object alternativesOrNothing, true⟩ (.object []) = false ↔
      ¬ Evaluation.Passes (.object alternativesOrNothing)
          (Json.object alternativesOrNothing).references []
          (.object (taggedAlternatives.erase "oneOf")) (.object []) ∨
        true = true ∧ Faulty (.object alternativesOrNothing)
          (Json.object alternativesOrNothing).references
          (Json.object alternativesOrNothing).references (.object alternativesOrNothing) (.object []) :=
  CompiledSchema.rejects_unselected_iff ⟨"#/x", .object alternativesOrNothing, true⟩
    taggedAlternatives_ordered taggedCases_ordered rfl taggedAlternatives_not_reference
    emptyObject_unselected (findings_alternativesOrNothing rfl)

/-- An empty object selects no case, the schema asks nothing but what the cases ask, and it is
accepted. -/
theorem alternativesOrNothing_accepts_unselected :
    (∀ document, schemaWithCases document taggedAlternatives =
      withCases "kind" taggedCases taggedAlternatives) ∧
    (∀ text, (Json.object []).getString? "kind" = some text → taggedCases.get? text = none) ∧
    (∀ inst, inst.ordered = true →
      (Evaluation.findings (.object alternativesOrNothing) (.object alternativesOrNothing) inst = [] ↔
        Evaluation.Passes (.object alternativesOrNothing)
          (Json.object alternativesOrNothing).references []
          (.object (withCases "kind" taggedCases taggedAlternatives)) inst)) ∧
    CompiledSchema.accepts ⟨"#/x", .object alternativesOrNothing, true⟩ (.object []) = true := by
  refine ⟨taggedAlternatives_withCases, emptyObject_unselected,
    fun inst hinst => findings_alternativesOrNothing hinst, ?_⟩
  rw [CompiledSchema.accepts_iff]
  refine ⟨(findings_alternativesOrNothing rfl).2 ?_, fun _ => alternativesOrNothing_unguarded⟩
  rw [Evaluation.passes_unselected taggedAlternatives_ordered taggedCases_ordered rfl
    taggedAlternatives_not_reference emptyObject_unselected]
  exact passes_otherKeywords rfl

end ApiContract
