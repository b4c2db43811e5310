import ApiContract.Proofs.Schema.Reading
import ApiContract.Proofs.Schema.Unselected

/-! # Nothing found and nothing reported

What it comes to, for each kind of schema, that the evaluation finds nothing and the guard reports nothing.

* `Cleared`: the evaluation finds nothing, and the guard, where it is asked, reports nothing.
* `cleared_reference`, `cleared_keywords`, `cleared_cases`: one lemma for each kind of schema. -/

set_option autoImplicit false

namespace ApiContract

/-- Whether the guard passes over a conjunct. -/
def hasCondition (sub : Json) : Bool := (sub.get? "if").isSome

/-- The evaluation finds nothing, and the guard reports nothing where it is asked. -/
def Cleared (root : Json) (known pool : List String) (strict : Bool) (schema inst : Json) : Prop :=
  Evaluation.Passes root known pool schema inst ∧
    (strict = true → ¬ Faulty root known pool schema inst)

section

variable {root inst : Json} {known pool : List String} {strict : Bool}

/-! ## Kind by kind -/

theorem cleared_bool {b : Bool} : Cleared root known pool strict (.bool b) inst ↔ b = true := by
  have hfault : ¬ Faulty root known pool (.bool b) inst := not_faulty_of_not_object rfl
  cases b with
  | false => exact iff_of_false (fun h => Evaluation.not_passes_false h.1) (by simp)
  | true => exact iff_of_true ⟨Evaluation.passes_true, fun _ => hfault⟩ rfl

theorem cleared_reference {keywords : Fields} {reference : String} {target : Json}
    (href : keywords.get? "$ref" = some (.string reference))
    (htarget : targetOf root reference = .ok target)
    (hresolve : root.resolve? reference = some target) :
    Cleared root known pool strict (.object keywords) inst ↔
      (reference ∈ pool →
        Cleared root known (withoutReference reference pool) strict target inst) := by
  have href' : (Json.object keywords).reference? = some reference := by
    rw [Json.reference?, Json.getString?, Json.get?, href]
    rfl
  unfold Cleared
  rw [Evaluation.passes_reference href, not_faulty_reference href', htarget, hresolve]
  simp only [Except.ok.injEq, forall_eq', Option.some.injEq]
  constructor
  · exact fun h hpool => ⟨h.1 hpool, fun hstrict => h.2 hstrict hpool⟩
  · exact fun h => ⟨fun hpool => (h hpool).1, fun hstrict hpool => (h hpool).2 hstrict⟩

theorem not_faulty_property {keywords : Fields} {name : String} {value : Json} :
    (∀ steps sub, propertySchema? (.object keywords) name = some (steps, sub) →
        ¬ Faulty root known pool sub value) ↔
      ∀ sub, propertySchemaOf? keywords name = some sub → ¬ Faulty root known pool sub value := by
  have hdeclared : ((Json.object keywords).get? "properties").bind (·.get? name) =
      declaredProperty? keywords name := by
    rw [declaredProperty?, Json.get?]
    cases keywords.get? "properties" with
    | none => rfl
    | some given => cases given <;> rfl
  rw [propertySchema?, propertySchemaOf?, hdeclared]
  cases declaredProperty? keywords name with
  | some sub => simp
  | none =>
    simp only [Json.get?, Option.none_or]
    cases keywords.get? "additionalProperties" with
    | none => simp
    | some given =>
      cases given with
      | object fields => simp [Option.filter, isItemSchema]
      | bool b =>
        have hfault : ¬ Faulty root known pool (.bool b) value := not_faulty_of_not_object rfl
        refine iff_of_true (by simp) ?_
        intro sub hsub
        rw [Option.filter_eq_some_iff] at hsub
        cases hsub.1
        exact hfault
      | _ => simp [Option.filter, isItemSchema]

theorem not_faulty_item {keywords : Fields} {place : Nat} {item : Json} (hplain : IsPlain keywords) :
    (∀ sub, guardedItem? (.object keywords) place = some sub → ¬ Faulty root known pool sub item) ↔
      ∀ sub, itemSchema? keywords place = some sub → ¬ Faulty root known pool sub item := by
  rw [guardedItem?, itemSchema?, Json.get?, hplain "additionalItems" (by decide)]
  cases keywords.get? "items" with
  | none => simp
  | some given =>
    cases given with
    | array tuple => simp
    | object fields => simp [Option.filter, isItemSchema]
    | bool b =>
      have hfault : ¬ Faulty root known pool (.bool b) item := not_faulty_of_not_object rfl
      refine iff_of_true (by simp) ?_
      intro sub hsub
      rw [Option.filter_eq_some_iff] at hsub
      cases hsub.1
      exact hfault
    | _ => simp [Option.filter, isItemSchema]

theorem not_faulty_plain {keywords : Fields} (href : (Json.object keywords).reference? = none)
    (hcases : keywords.get? casesKeyword = none) (hplain : IsPlain keywords) :
    ¬ Faulty root known pool (.object keywords) inst ↔
      (∀ sub ∈ conjuncts keywords, hasCondition sub = false → ¬ Faulty root known pool sub inst) ∧
      (∀ fields, inst = .object fields → ∀ name value, (name, value) ∈ fields →
        ∀ sub, propertySchemaOf? keywords name = some sub → ¬ Faulty root known known sub value) ∧
      ∀ items, inst = .array items → ∀ (i : Nat) item, items[i]? = some item →
        ∀ sub, itemSchema? keywords i = some sub → ¬ Faulty root known known sub item := by
  have hconjunct : ∀ sub, sub ∈ guardedConjuncts (.object keywords) ↔
      sub ∈ conjuncts keywords ∧ hasCondition sub = false := by
    intro sub
    rw [guardedConjuncts_object, List.mem_filter, hasCondition]
    simp
  rw [not_faulty_keywords href, selection_of_no_cases hcases, passes_unconditional,
    passes_guardedParts]
  simp only [not_faulty_property, not_faulty_item hplain, hconjunct, Selected, true_and, and_imp]

/-- Plain keywords are cleared if everything they lead to is. -/
theorem cleared_keywords {keywords : Fields} (hordered : (Json.object keywords).ordered = true)
    (hinst : inst.ordered = true)
    (href : ∀ reference, keywords.get? "$ref" ≠ some (.string reference))
    (hcases : keywords.get? casesKeyword = none) (hplain : IsPlain keywords) :
    Cleared root known pool strict (.object keywords) inst ↔
      (∀ key value, keywords.get? key = some value → Assertion.Holds key value inst) ∧
      (∀ sub ∈ conjuncts keywords,
        Cleared root known pool (strict && !hasCondition sub) sub inst) ∧
      (∀ fields, inst = .object fields → ∀ name value, (name, value) ∈ fields →
        ∀ sub, propertySchemaOf? keywords name = some sub →
          Cleared root known known strict sub value) ∧
      ∀ items, inst = .array items → ∀ (i : Nat) item, items[i]? = some item →
        ∀ sub, itemSchema? keywords i = some sub → Cleared root known known strict sub item := by
  have hall : (∀ value, keywords.get? "allOf" = some value → ∀ sub ∈ listed value,
      Evaluation.Passes root known pool sub inst) ↔
      ∀ sub ∈ conjuncts keywords, Evaluation.Passes root known pool sub inst := by
    simp only [mem_conjuncts]
    exact ⟨fun h sub ⟨value, hvalue, hsub⟩ => h value hvalue sub hsub,
      fun h value hvalue sub hsub => h sub ⟨value, hvalue, hsub⟩⟩
  unfold Cleared
  rw [Evaluation.passes_iff_fulfils hordered hinst href, fulfils_of_plain hplain, hall,
    not_faulty_plain (reference?_object.2 href) hcases hplain]
  unfold ItemsPass
  constructor
  · rintro ⟨⟨hasserts, hsubs, hmembers, hitems⟩, hguard⟩
    refine ⟨hasserts, fun sub hsub => ⟨hsubs sub hsub, fun hstrict => ?_⟩,
      fun fields hf name value hmem sub hsub => ⟨hmembers fields hf name value hmem sub hsub,
        fun hstrict => (hguard hstrict).2.1 fields hf name value hmem sub hsub⟩,
      fun items hi i item hitem sub hsub => ⟨hitems items hi i item hitem sub hsub,
        fun hstrict => (hguard hstrict).2.2 items hi i item hitem sub hsub⟩⟩
    rw [Bool.and_eq_true, Bool.not_eq_true'] at hstrict
    exact (hguard hstrict.1).1 sub hsub hstrict.2
  · rintro ⟨hasserts, hsubs, hmembers, hitems⟩
    refine ⟨⟨hasserts, fun sub hsub => (hsubs sub hsub).1,
      fun fields hf name value hmem sub hsub => (hmembers fields hf name value hmem sub hsub).1,
      fun items hi i item hitem sub hsub => (hitems items hi i item hitem sub hsub).1⟩,
      fun hstrict => ⟨fun sub hsub hcondition => (hsubs sub hsub).2 ?_,
        fun fields hf name value hmem sub hsub =>
          (hmembers fields hf name value hmem sub hsub).2 hstrict,
        fun items hi i item hitem sub hsub =>
          (hitems items hi i item hitem sub hsub).2 hstrict⟩⟩
    rw [hstrict, hcondition]
    rfl

theorem ordered_cases {schema : Json} {tag : String} {cases base : Fields}
    (h : HasCases schema tag cases base) (hordered : schema.ordered = true) :
    (Json.object cases).ordered = true := by
  have hget : schema.get? casesKeyword = some (.object cases) := by
    rw [h.rewritten, Json.get?, get?_withCases, if_pos rfl]
  exact Json.ordered_of_get? hordered hget

/-- A schema with cases is cleared if the other keywords and the selected case are; where the guard is
asked there has to be one. -/
theorem cleared_cases {schema : Json} {tag : String} {cases base : Fields}
    (h : HasCases schema tag cases base) (hordered : schema.ordered = true)
    (hinst : inst.ordered = true) :
    Cleared root known pool strict schema inst ↔
      Cleared root known pool strict (.object (otherKeywords base)) inst ∧
      (strict = true → ∃ value branch, inst.getString? tag = some value ∧
        cases.get? value = some branch) ∧
      ∀ value branch, inst.getString? tag = some value → cases.get? value = some branch →
        Cleared root known pool strict branch inst := by
  unfold Cleared otherKeywords
  rw [h.rewritten, Evaluation.passes_withCases h.ordered (ordered_cases h hordered) hinst
    h.unreferenced, not_faulty_withCases h.tagged h.fresh h.unreferenced]
  constructor
  · rintro ⟨⟨hothers, hpasses⟩, hguard⟩
    refine ⟨⟨hothers, fun hstrict => (hguard hstrict).2⟩, fun hstrict => ?_, ?_⟩
    · obtain ⟨value, branch, hvalue, hbranch, -⟩ := (hguard hstrict).1
      exact ⟨value, branch, hvalue, hbranch⟩
    · intro value branch hvalue hbranch
      refine ⟨hpasses value branch hvalue hbranch, fun hstrict => ?_⟩
      obtain ⟨other, found, hother, hfound, hfault⟩ := (hguard hstrict).1
      cases hvalue.symm.trans hother
      cases hbranch.symm.trans hfound
      exact hfault
  · rintro ⟨hothers, hselects, hbranches⟩
    refine ⟨⟨hothers.1, fun value branch hvalue hbranch =>
      (hbranches value branch hvalue hbranch).1⟩, fun hstrict => ⟨?_, hothers.2 hstrict⟩⟩
    obtain ⟨value, branch, hvalue, hbranch⟩ := hselects hstrict
    exact ⟨value, branch, hvalue, hbranch, (hbranches value branch hvalue hbranch).2 hstrict⟩

end

end ApiContract
