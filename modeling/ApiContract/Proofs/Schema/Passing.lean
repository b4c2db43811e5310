import ApiContract.Schema.Evaluation
import ApiContract.Proofs.Schema.Items
import ApiContract.Proofs.Schema.Members

/-! # What passes a schema

The findings of a schema, read as a verdict. Each keyword asks one thing of an instance, and an
instance passes a schema exactly if it does what all keywords ask.

* `Evaluation.Passes`: nothing is found.
* `Fulfils`: what the keywords of a schema ask, given which schemas the instance and its parts pass.
* `Evaluation.passes_iff_fulfils`: the two agree on ordered values. -/

set_option autoImplicit false

namespace ApiContract

/-! ## Verdicts -/

namespace Evaluation

variable {root : Json} {known pool : List String} {inst : Json} {keywords : Fields}

/-- Nothing is found. -/
def Passes (root : Json) (known pool : List String) (schema inst : Json) : Prop :=
  findingsWith root known pool schema inst = []

theorem not_passes_false : ¬ Passes root known pool (.bool false) inst := by
  simp [Passes, findingsWith]

theorem passes_true : Passes root known pool (.bool true) inst := by
  simp [Passes, findingsWith]

theorem passes_reference {reference : String}
    (h : Fields.get? "$ref" keywords = some (.string reference)) :
    Passes root known pool (.object keywords) inst ↔
      (reference ∈ pool → ∀ target, targetOf root reference = .ok target →
        Passes root known (withoutReference reference pool) target inst) := by
  unfold Passes
  rw [findingsWith, h]
  by_cases hpool : reference ∈ pool
  · cases htarget : targetOf root reference with
    | ok target => simp [hpool, htarget]
    | error e => simp [hpool, htarget]
  · simp [hpool]

theorem passes_keywords (h : ∀ reference, Fields.get? "$ref" keywords ≠ some (.string reference)) :
    Passes root known pool (.object keywords) inst ↔
      ∀ entry ∈ Json.fieldParts (.object keywords),
        assertions keywords entry.1 entry.2.value inst = [] ∧
          Asks (fun schema => Passes root known pool schema inst) (Passes root known known)
            keywords entry.1 entry.2 inst := by
  unfold Passes Asks
  rw [findingsWith]
  split
  · rename_i reference href
    exact absurd href (h reference)
  · simp only [List.flatMap_eq_nil_iff, List.append_eq_nil_iff, Demand.findings_eq_nil_iff]
    refine forall_congr' fun entry => imp_congr_right fun _ => and_congr_right fun _ =>
      forall_congr' fun demand => imp_congr_right fun _ => Demand.holds_congr fun a => ?_
    cases a <;> simp [Application.Passes]

end Evaluation

/-! ## All keywords -/

/-- What the keywords of a schema ask of an instance, where `here` tells which schemas the instance
passes and `inside` which schemas its parts pass. -/
structure Fulfils (here : Json → Prop) (inside : Json → Json → Prop) (keywords : Fields)
    (inst : Json) : Prop where
  asserts : ∀ key value, keywords.get? key = some value →
    Assertion.Holds key value inst ∧ contentFailures keywords key value inst = []
  all : ∀ value, keywords.get? "allOf" = some value → ∀ sub ∈ listed value, here sub
  any : ∀ value, keywords.get? "anyOf" = some value → ∃ sub ∈ listed value, here sub
  one : ∀ value, keywords.get? "oneOf" = some value → ExactlyOne here (listed value)
  not : ∀ sub, keywords.get? "not" = some sub → ¬ here sub
  condition : ∀ test, keywords.get? "if" = some test →
    (∀ sub, keywords.get? "then" = some sub → here test → here sub) ∧
      (∀ sub, keywords.get? "else" = some sub → ¬ here test → here sub)
  members : ∀ fields, inst = .object fields → MembersPass inside keywords fields
  names : ∀ fields, inst = .object fields → ∀ sub, keywords.get? "propertyNames" = some sub →
    isItemSchema sub = true → ∀ name value, (name, value) ∈ fields → inside sub (.string name)
  dependencies : ∀ fields : Fields, inst = .object fields →
    ∀ entries, keywords.get? "dependencies" = some (.object entries) →
      ∀ name dependency, (name, dependency) ∈ entries → fields.hasKey name = true →
        DependencyHolds here fields dependency
  items : ∀ items, inst = .array items → ItemsPass inside keywords items
  contains : ∀ items, inst = .array items → ∀ sub, keywords.get? "contains" = some sub →
    ∃ item ∈ items, inside sub item

namespace Evaluation

variable {root : Json} {known pool : List String} {inst : Json} {keywords : Fields}

theorem assertions_eq_nil_iff {key : String} {value : Json} :
    assertions keywords key value inst = [] ↔
      Assertion.Holds key value inst ∧ contentFailures keywords key value inst = [] := by
  rw [assertions, List.append_eq_nil_iff, List.map_eq_nil_iff, List.map_eq_nil_iff,
    Assertion.failures_eq_nil_iff]

/-- Keyword by keyword, an instance does what is asked exactly if the keywords are fulfilled. -/
theorem fulfils_iff {here : Json → Prop} {inside : Json → Json → Prop}
    (hfalse : ∀ value, ¬ inside (.bool false) value)
    (hordered : (Json.object keywords).ordered = true) (hinst : inst.ordered = true) :
    (∀ entry ∈ Json.fieldParts (.object keywords),
      assertions keywords entry.1 entry.2.value inst = [] ∧
        Asks here inside keywords entry.1 entry.2 inst) ↔ Fulfils here inside keywords inst := by
  have ho : Fields.Ordered keywords := (Json.ordered_object.1 hordered).1
  have hget : ∀ {key : String} {value : Part (.object keywords)},
      (key, value) ∈ Json.fieldParts (.object keywords) ↔
        keywords.get? key = some value.value := by
    intro key value
    rw [mem_fieldParts_object, Fields.mem_iff_get? ho]
  have hanswers : (∀ entry ∈ Json.fieldParts (.object keywords),
      assertions keywords entry.1 entry.2.value inst = [] ∧
        Asks here inside keywords entry.1 entry.2 inst) ↔
      (∀ key value, keywords.get? key = some value →
        Assertion.Holds key value inst ∧ contentFailures keywords key value inst = []) ∧
      ∀ key, Answers here inside keywords key inst := by
    constructor
    · intro h
      refine ⟨fun key value hvalue => ?_, fun key value hvalue => (h (key, value) (hget.2 hvalue)).2⟩
      obtain ⟨part, rfl, hpart⟩ := exists_fieldPart rfl (Fields.mem_of_get? hvalue)
      exact assertions_eq_nil_iff.1 (h (key, part) hpart).1
    · rintro ⟨hasserts, hasks⟩ ⟨key, part⟩ hpart
      have hvalue := hget.1 hpart
      exact ⟨assertions_eq_nil_iff.2 (hasserts key part.value hvalue), hasks key part hvalue⟩
  rw [hanswers]
  constructor
  · rintro ⟨hasserts, h⟩
    obtain ⟨hmembers, hnames, hdependencies⟩ := (answers_object hfalse hinst hordered).1
      ⟨⟨h _, h _, h _⟩, h _, h _⟩
    obtain ⟨hitems, hcontains⟩ := (answers_array hfalse).1 ⟨⟨h _, h _⟩, h _⟩
    exact ⟨hasserts, (answers_iff fun value _ => asks_allOf).1 (h _),
      (answers_iff fun value _ => asks_anyOf).1 (h _),
      (answers_iff fun value _ => asks_oneOf).1 (h _),
      (answers_iff fun value _ => asks_not).1 (h _),
      (answers_iff fun value _ => asks_if).1 (h _), hmembers, hnames, hdependencies, hitems,
      hcontains⟩
  · intro h
    obtain ⟨⟨hproperties, hpatterns, hadditional⟩, hnames, hdependencies⟩ :=
      (answers_object hfalse hinst hordered).2 ⟨h.members, h.names, h.dependencies⟩
    obtain ⟨⟨hitems, hextra⟩, hcontains⟩ := (answers_array hfalse).2 ⟨h.items, h.contains⟩
    refine ⟨h.asserts, fun key => ?_⟩
    by_cases hkey : key ∈ applicatorKeywords
    · simp only [applicatorKeywords, List.mem_cons, List.not_mem_nil, or_false] at hkey
      rcases hkey with rfl | rfl | rfl | rfl | rfl | rfl | rfl | rfl | rfl | rfl | rfl | rfl | rfl
      · exact (answers_iff fun value _ => asks_allOf).2 h.all
      · exact (answers_iff fun value _ => asks_anyOf).2 h.any
      · exact (answers_iff fun value _ => asks_oneOf).2 h.one
      · exact (answers_iff fun value _ => asks_not).2 h.not
      · exact (answers_iff fun value _ => asks_if).2 h.condition
      · exact hproperties
      · exact hpatterns
      · exact hadditional
      · exact hnames
      · exact hdependencies
      · exact hitems
      · exact hextra
      · exact hcontains
    · exact fun value _ => asks_of_not_mem hkey

/-- The findings are none exactly if the keywords are fulfilled. -/
theorem passes_iff_fulfils (hordered : (Json.object keywords).ordered = true)
    (hinst : inst.ordered = true)
    (href : ∀ reference, Fields.get? "$ref" keywords ≠ some (.string reference)) :
    Passes root known pool (.object keywords) inst ↔
      Fulfils (fun schema => Passes root known pool schema inst) (Passes root known known)
        keywords inst := by
  rw [passes_keywords href]
  exact fulfils_iff (fun _ => not_passes_false) hordered hinst

end Evaluation

end ApiContract
