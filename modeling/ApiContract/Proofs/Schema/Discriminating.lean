import ApiContract.Proofs.Schema.Applying

/-! # Evaluation with discriminators

The keywords of a discriminated schema ask nothing of an instance that selects none of its cases.
Evaluation with discriminators asks for a case besides, wherever it applies such a schema.

* `Evaluation.PassesAlso`: evaluation where schemas ask for more than their keywords do;
  `passesAlso_true_iff` compares it with the findings.
* `Evaluation.PassesTagged`: evaluation with discriminators.
* `Spot.Entails`: a spot brings another one with it, and passes only if the other one does.
* `Spot.Entails.case`: the guard of a case brings the case with it. -/

set_option autoImplicit false

namespace ApiContract

/-! ## Asking for more -/

namespace Evaluation

/-- An instance passes a schema where every schema with keywords also asks for `also`. The applications
are those of `findingsWith`. -/
def PassesAlso (also : Json → Json → Prop) (root : Json) (known pool : List String)
    (schema inst : Json) : Prop :=
  match schema with
  | .bool false => False
  | .object keywords =>
    match Fields.get? "$ref" keywords with
    | some (.string reference) =>
      ∀ (_ : reference ∈ pool) target, targetOf root reference = .ok target →
        PassesAlso also root known (withoutReference reference pool) target inst
    | _ =>
      let succeeds : Application (.object keywords) inst → Prop
        | .here _ part => PassesAlso also root known pool part.value inst
        | .inside _ sub _ part => PassesAlso also root known known sub part.value
      also (.object keywords) inst ∧ ∀ entry ∈ Json.fieldParts (.object keywords),
        assertions keywords entry.1 entry.2.value inst = [] ∧
          ∀ demand ∈ applicatorDemands keywords entry.1 entry.2, Demand.Holds succeeds demand
  | _ => True
termination_by (sizeOf inst, pool.length, sizeOf schema)
decreasing_by
  · exact Prod.Lex.right _ (Prod.Lex.left _ _ (length_withoutReference_lt (by assumption)))
  · exact Prod.Lex.right _ (Prod.Lex.right _ part.smaller)
  · exact Prod.Lex.left _ _ part.smaller

section

variable {also : Json → Json → Prop} {root inst : Json} {known pool : List String} {keywords : Fields}

theorem not_passesAlso_false : ¬ PassesAlso also root known pool (.bool false) inst := by
  simp [PassesAlso]

theorem passesAlso_reference {reference : String}
    (h : Fields.get? "$ref" keywords = some (.string reference)) :
    PassesAlso also root known pool (.object keywords) inst ↔
      (reference ∈ pool → ∀ target, targetOf root reference = .ok target →
        PassesAlso also root known (withoutReference reference pool) target inst) := by
  rw [PassesAlso, h]

theorem passesAlso_keywords (h : ∀ reference, Fields.get? "$ref" keywords ≠ some (.string reference)) :
    PassesAlso also root known pool (.object keywords) inst ↔
      also (.object keywords) inst ∧ ∀ entry ∈ Json.fieldParts (.object keywords),
        assertions keywords entry.1 entry.2.value inst = [] ∧
          Asks (fun schema => PassesAlso also root known pool schema inst)
            (PassesAlso also root known known) keywords entry.1 entry.2 inst := by
  rw [PassesAlso]
  split
  · rename_i reference href
    exact absurd href (h reference)
  · refine and_congr_right fun _ => forall_congr' fun entry => imp_congr_right fun _ =>
      and_congr_right fun _ => forall_congr' fun demand => imp_congr_right fun _ =>
        Demand.holds_congr fun a => ?_
    cases a <;> exact Iff.rfl

/-- Keyword by keyword: what an instance passes that does what else is asked. -/
theorem passesAlso_iff_fulfils (hordered : (Json.object keywords).ordered = true)
    (hinst : inst.ordered = true)
    (href : ∀ reference, Fields.get? "$ref" keywords ≠ some (.string reference)) :
    PassesAlso also root known pool (.object keywords) inst ↔
      also (.object keywords) inst ∧
        Fulfils (fun schema => PassesAlso also root known pool schema inst)
          (PassesAlso also root known known) keywords inst := by
  rw [passesAlso_keywords href]
  exact and_congr_right fun _ => fulfils_iff (fun _ => not_passesAlso_false) hordered hinst

/-- Where nothing else is asked, an instance passes exactly if nothing is found. -/
theorem passesAlso_true_iff (root : Json) (known pool : List String) (schema inst : Json) :
    PassesAlso (fun _ _ => True) root known pool schema inst ↔ Passes root known pool schema inst := by
  cases schema with
  | object keywords =>
    by_cases href : ∃ reference, Fields.get? "$ref" keywords = some (.string reference)
    · obtain ⟨reference, href⟩ := href
      rw [passesAlso_reference href, passes_reference href]
      refine forall_congr' fun hpool => forall_congr' fun target => imp_congr_right fun _ => ?_
      exact passesAlso_true_iff root known (withoutReference reference pool) target inst
    · rw [not_exists] at href
      rw [passesAlso_keywords href, passes_keywords href, true_and]
      refine forall_congr' fun entry => imp_congr_right fun _ => and_congr_right fun _ =>
        forall_congr' fun demand => imp_congr_right fun _ => Demand.holds_congr fun a => ?_
      cases a with
      | here steps part => exact passesAlso_true_iff root known pool part.value inst
      | inside steps sub inner part => exact passesAlso_true_iff root known known sub part.value
  | bool b => cases b <;> simp [PassesAlso, Passes, findingsWith]
  | _ => simp [PassesAlso, Passes, findingsWith]
termination_by (sizeOf inst, pool.length, sizeOf schema)
decreasing_by
  · exact Prod.Lex.right _ (Prod.Lex.left _ _ (length_withoutReference_lt hpool))
  · exact Prod.Lex.right _ (Prod.Lex.right _ part.smaller)
  · exact Prod.Lex.left _ _ part.smaller

end

/-! ## Asking for a case -/

/-- What a discriminated schema asks for besides its keywords: that the instance selects a case. -/
def SelectsCase (schema inst : Json) : Prop := Selected (fun _ => True) (selection schema inst)

section

variable {root inst : Json} {known pool : List String} {tag tagged : String}

theorem selectsCase_of_no_cases {keywords : Fields} (h : keywords.get? casesKeyword = none) :
    SelectsCase (.object keywords) inst := by
  rw [SelectsCase, selection_of_no_cases h]
  trivial

theorem isConst_selectsCase : IsConst (PassesAlso SelectsCase root known known) tagged := by
  intro held hheld
  rw [passesAlso_iff_fulfils const_ordered hheld (by simp [Fields.get?_cons]), fulfils_const]
  exact and_iff_right (selectsCase_of_no_cases (by simp [Fields.get?_cons, casesKeyword]))

/-- The test of a case asks for its tag, with discriminators as without. -/
theorem passesAlso_tagTest (hinst : inst.ordered = true) :
    PassesAlso SelectsCase root known pool (.object (tagTest tag tagged)) inst ↔
      inst.getString? tag = some tagged := by
  rw [passesAlso_iff_fulfils tagTest_ordered hinst (by simp [tagTest, Fields.get?_cons]),
    fulfils_tagTest isConst_selectsCase hinst]
  exact and_iff_right (selectsCase_of_no_cases (by simp [tagTest, Fields.get?_cons, casesKeyword]))

end

end Evaluation

/-! ## What spots bring with them -/

namespace Spot

/-- The value of a spot passes its schema, with discriminators. -/
def PassesTagged (root : Json) (known : List String) (spot : Spot) : Prop :=
  Evaluation.PassesAlso Evaluation.SelectsCase root known spot.pool spot.schema spot.value

/-- Evaluation goes from a spot to another one in any case, and the first one passes only if the second
one does. -/
structure Entails (root : Json) (known : List String) (spot next : Spot) : Prop where
  steps : Relation.ReflTransGen (EvaluationStep root known) spot next
  passes : spot.PassesTagged root known → next.PassesTagged root known

namespace Entails

variable {root : Json} {known : List String} {spot next last : Spot}

theorem refl (spot : Spot) : spot.Entails root known spot := ⟨.refl, id⟩

theorem trans (h : spot.Entails root known next) (hnext : next.Entails root known last) :
    spot.Entails root known last :=
  ⟨h.steps.trans hnext.steps, fun hpasses => hnext.passes (h.passes hpasses)⟩

theorem reference {reference : String} {target : Json}
    (href : spot.schema.reference? = some reference) (hpool : reference ∈ spot.pool)
    (htarget : targetOf root reference = .ok target) :
    spot.Entails root known
      ⟨withoutReference reference spot.pool, spot.path, target, spot.value⟩ := by
  refine ⟨.single (.reference href hpool htarget), fun hpasses => ?_⟩
  obtain ⟨pool, path, schema, value⟩ := spot
  cases schema with
  | object keywords =>
    exact (Evaluation.passesAlso_reference (get?_of_reference? href)).1 hpasses hpool target htarget
  | _ => cases href

theorem required {keywords : Fields} {a : Application (.object keywords) spot.value}
    (hschema : spot.schema = .object keywords) (href : spot.schema.reference? = none)
    (h : Required keywords spot.value a) : spot.Entails root known (spot.apply known a) := by
  refine ⟨.single (h.step hschema href), fun hpasses => ?_⟩
  obtain ⟨pool, path, schema, value⟩ := spot
  cases hschema
  obtain ⟨key, given, hentry, applications, hdemand, ha⟩ := h
  obtain ⟨-, hasks⟩ := (Evaluation.passesAlso_keywords (reference?_object.1 href)).1 hpasses
  have happly := (hasks (key, given) hentry).2 _ hdemand a ha
  cases a <;> exact happly

/-- The guard of a case brings the case with it, for an object with the tag of the case. -/
theorem case {tag tagged : String} {branch : Json} (hschema : spot.schema = caseGuard tag tagged branch)
    (hvalue : spot.value.ordered = true) (htag : spot.value.getString? tag = some tagged) :
    spot.Entails root known ⟨spot.pool, spot.path, branch, spot.value⟩ := by
  obtain ⟨pool, path, schema, value⟩ := spot
  rw [Evaluation.caseGuard_eq] at hschema
  cases hschema
  obtain ⟨keywords, hkeywords⟩ : ∃ keywords : Fields, keywords =
    [("if", .object (Evaluation.tagTest tag tagged)), ("then", branch)] := ⟨_, rfl⟩
  rw [← hkeywords]
  have hif : keywords.get? "if" = some (.object (Evaluation.tagTest tag tagged)) := by
    simp [hkeywords, Fields.get?_cons]
  have hthen : (Json.object keywords).get? "then" = some branch := by
    simp [hkeywords, Json.get?, Fields.get?_cons]
  have href : (Json.object keywords).reference? = none :=
    reference?_object.2 (by simp [hkeywords, Fields.get?_cons])
  constructor
  · exact .single (.condition rfl href hif hthen ((Evaluation.passes_tagTest hvalue).2 htag))
  · intro hpasses
    obtain ⟨-, hasks⟩ := (Evaluation.passesAlso_keywords (reference?_object.1 href)).1 hpasses
    obtain ⟨test, htest, hentry⟩ := exists_fieldPart rfl (Fields.mem_of_get? hif)
    refine (asks_if.1 (hasks ("if", test) hentry).2).1 branch hthen ?_
    rw [htest]
    exact (Evaluation.passesAlso_tagTest hvalue).2 htag

end Entails

end Spot

end ApiContract
