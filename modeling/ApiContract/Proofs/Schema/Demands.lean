import ApiContract.Schema.Applicator
import ApiContract.Proofs.Json.Parts

/-! # What keywords ask

A keyword that applies schemas makes demands. What they come to is said in terms of two relations
that tell which applications succeed.

* `Demand.Holds`: what a demand asks for; `Demand.findings_eq_nil_iff`: there are no findings then.
* `Asks`, `Answers`: what one keyword asks of an instance. -/

set_option autoImplicit false

namespace ApiContract

/-! ## Demands -/

/-- Exactly one item of a list has a property. -/
def ExactlyOne {α : Type} (p : α → Prop) (items : List α) : Prop :=
  ∃ before item after, items = before ++ item :: after ∧ p item ∧ ∀ other ∈ before ++ after, ¬ p other

theorem exactlyOne_map {α β : Type} {p : β → Prop} {f : α → β} {items : List α} :
    ExactlyOne p (items.map f) ↔ ExactlyOne (fun a => p (f a)) items := by
  constructor
  · rintro ⟨before, item, after, hsplit, hitem, hothers⟩
    obtain ⟨front, back, rfl, rfl, hback⟩ := List.map_eq_append_iff.1 hsplit
    obtain ⟨a, rest, rfl, rfl, rfl⟩ := List.map_eq_cons_iff.1 hback
    refine ⟨front, a, rest, rfl, hitem, fun other hother => ?_⟩
    apply hothers
    rw [← List.map_append]
    exact List.mem_map_of_mem hother
  · rintro ⟨before, item, after, rfl, hitem, hothers⟩
    refine ⟨before.map f, f item, after.map f, by simp, hitem, fun other hother => ?_⟩
    rw [← List.map_append] at hother
    obtain ⟨a, ha, rfl⟩ := List.mem_map.1 hother
    exact hothers a ha

theorem exactlyOne_congr {α : Type} {p q : α → Prop} {items : List α}
    (h : ∀ a ∈ items, (p a ↔ q a)) : ExactlyOne p items ↔ ExactlyOne q items := by
  have hmp : ∀ {p q : α → Prop}, (∀ a ∈ items, (p a ↔ q a)) → ExactlyOne p items →
      ExactlyOne q items := by
    rintro p q h ⟨before, item, after, rfl, hitem, hothers⟩
    refine ⟨before, item, after, rfl, (h item (by simp)).1 hitem, fun other hother hq => ?_⟩
    have hmem : other ∈ before ++ item :: after := by
      rcases List.mem_append.1 hother with hleft | hright
      · exact List.mem_append_left _ hleft
      · exact List.mem_append_right _ (List.mem_cons_of_mem _ hright)
    exact hothers other hother ((h other hmem).2 hq)
  exact ⟨hmp h, hmp fun a ha => (h a ha).symm⟩

/-- Where no two items have a property, exactly one has it if any has. -/
theorem exactlyOne_iff_exists {α : Type} {p : α → Prop} {items : List α}
    (h : items.Pairwise fun a b => p a → ¬ p b) : ExactlyOne p items ↔ ∃ a ∈ items, p a := by
  constructor
  · rintro ⟨before, item, after, rfl, hitem, -⟩
    exact ⟨item, List.mem_append_right _ (List.mem_cons_self ..), hitem⟩
  · rintro ⟨a, hmem, ha⟩
    obtain ⟨before, after, rfl⟩ := List.append_of_mem hmem
    obtain ⟨-, hafter, hbefore⟩ := List.pairwise_append.1 h
    refine ⟨before, a, after, rfl, ha, fun other hother hp => ?_⟩
    rcases List.mem_append.1 hother with hleft | hright
    · exact hbefore other hleft a (List.mem_cons_self ..) hp ha
    · exact (List.pairwise_cons.1 hafter).1 other hright ha hp

theorem countP_eq_one_iff {α : Type} {p : α → Bool} {items : List α} :
    items.countP p = 1 ↔ ExactlyOne (fun a => p a = true) items := by
  constructor
  · intro h
    induction items with
    | nil => simp at h
    | cons item rest ih =>
      by_cases hp : p item = true
      · rw [List.countP_cons_of_pos hp] at h
        have hrest : rest.countP p = 0 := by omega
        refine ⟨[], item, rest, rfl, hp, fun other hother => ?_⟩
        exact List.countP_eq_zero.1 hrest other (by simpa using hother)
      · rw [List.countP_cons_of_neg hp] at h
        obtain ⟨before, one, after, rfl, hone, hothers⟩ := ih h
        refine ⟨item :: before, one, after, rfl, hone, fun other hother => ?_⟩
        rcases List.mem_cons.1 hother with rfl | hmem
        · exact hp
        · exact hothers other hmem
  · rintro ⟨before, item, after, rfl, hitem, hothers⟩
    have hbefore : before.countP p = 0 :=
      List.countP_eq_zero.2 fun a ha => hothers a (List.mem_append_left _ ha)
    have hafter : after.countP p = 0 :=
      List.countP_eq_zero.2 fun a ha => hothers a (List.mem_append_right _ ha)
    rw [List.countP_append, List.countP_cons_of_pos hitem, hbefore, hafter]

namespace Demand

variable {α : Type}

/-- What a demand asks for, where `passes` tells which applications succeed. -/
def Holds (passes : α → Prop) : Demand α → Prop
  | fails _ => False
  | all applications => ∀ a ∈ applications, passes a
  | some applications _ => ∃ a ∈ applications, passes a
  | one applications _ _ => ExactlyOne passes applications
  | not application _ => ¬ passes application
  | branch test yes no =>
    (passes test → ∀ a ∈ yes, passes a) ∧ (¬ passes test → ∀ a ∈ no, passes a)
  | names applications => ∀ a ∈ applications, passes a

theorem findings_eq_nil_iff {run : α → List Finding} {demand : Demand α} :
    demand.findings run = [] ↔ demand.Holds fun a => run a = [] := by
  cases demand with
  | fails finding => simp [findings, Holds]
  | all applications => simp [findings, Holds]
  | some applications otherwise =>
    simp [findings, Holds]
  | one applications fewer more =>
    have hcount : applications.countP (fun a => (run a).isEmpty) = 1 ↔
        ExactlyOne (fun a => run a = []) applications := by
      rw [countP_eq_one_iff]
      simp only [List.isEmpty_iff]
    rw [Holds, ← hcount, findings]
    split
    · rename_i hzero
      simp [hzero]
    · rename_i hone
      simp [hone]
    · rename_i hne
      simpa using hne
  | not application finding =>
    simp only [findings, Holds]
    cases run application <;> simp
  | branch test yes no =>
    simp only [findings, Holds]
    by_cases h : run test = []
    · simp [h]
    · simp [h]
  | names applications => simp [findings, Holds]

theorem holds_congr {p q : α → Prop} (h : ∀ a, p a ↔ q a) {demand : Demand α} :
    demand.Holds p ↔ demand.Holds q := by
  have hpq : p = q := funext fun a => propext (h a)
  rw [hpq]

end Demand

/-! ## Verdicts -/

/-- Whether an application succeeds, where `here` tells which schemas the instance passes and
`inside` which schemas the parts of the instance pass. -/
def Application.Passes {schema inst : Json} (here : Json → Prop) (inside : Json → Json → Prop) :
    Application schema inst → Prop
  | .here _ part => here part.value
  | .inside _ sub _ part => inside sub part.value

/-- What a keyword asks of an instance. -/
def Asks {schema : Json} (here : Json → Prop) (inside : Json → Json → Prop) (keywords : Fields)
    (keyword : String) (value : Part schema) (inst : Json) : Prop :=
  ∀ demand ∈ (applicatorDemands keywords keyword value : List (Demand (Application schema inst))),
    demand.Holds (Application.Passes here inside)

/-! ## Keyword by keyword -/

/-- The items of a list of schemas. -/
def listed (value : Json) : List Json := value.items?.getD []

theorem listed_of_array {value : Json} {items : List Json} (h : value = .array items) :
    listed value = items := by
  rw [h]
  rfl

theorem mem_listed {value sub : Json} :
    sub ∈ listed value ↔ ∃ items, value = .array items ∧ sub ∈ items := by
  cases value <;> simp [listed, Json.items?]

section

variable {schema inst : Json} {here : Json → Prop} {inside : Json → Json → Prop}
  {keywords : Fields} {value : Part schema}

theorem asks_of_demand {keyword : String} (demand : Demand (Application schema inst))
    (h : applicatorDemands keywords keyword value = [demand]) :
    Asks here inside keywords keyword value inst ↔
      demand.Holds (Application.Passes here inside) := by
  rw [Asks, h]
  simp

theorem asks_of_nil {keyword : String}
    (h : (applicatorDemands keywords keyword value : List (Demand (Application schema inst))) = []) :
    Asks here inside keywords keyword value inst := by
  rw [Asks, h]
  simp

theorem map_itemParts (whole : Json) : whole.itemParts.map Part.value = listed whole := by
  cases whole with
  | array items => exact Json.map_value_itemParts items
  | _ => rfl

theorem map_numbered_itemParts (whole : Json) :
    (numbered whole.itemParts).map (fun item => item.2.value) = listed whole := by
  have hzip : (numbered whole.itemParts).map Prod.snd = whole.itemParts := by
    rw [numbered, List.map_snd_zip (by simp)]
  calc (numbered whole.itemParts).map (fun item => item.2.value)
      = ((numbered whole.itemParts).map Prod.snd).map Part.value := by rw [List.map_map]; rfl
    _ = listed whole := by rw [hzip, map_itemParts]

theorem asks_allOf :
    Asks here inside keywords "allOf" value inst ↔ ∀ sub ∈ listed value.value, here sub := by
  rw [asks_of_demand (.all (alternatives "allOf" value)) rfl, ← map_numbered_itemParts]
  simp only [Demand.Holds, alternatives, List.forall_mem_map]
  rfl

theorem asks_anyOf :
    Asks here inside keywords "anyOf" value inst ↔ ∃ sub ∈ listed value.value, here sub := by
  rw [asks_of_demand (.some (alternatives "anyOf" value)
    (.about "anyOf" (noneMessage "anyOf" inst))) rfl, ← map_numbered_itemParts]
  constructor
  · rintro ⟨a, ha, hpasses⟩
    obtain ⟨item, hitem, rfl⟩ := List.mem_map.1 ha
    exact ⟨_, List.mem_map_of_mem hitem, hpasses⟩
  · rintro ⟨sub, hsub, hpasses⟩
    obtain ⟨item, hitem, rfl⟩ := List.mem_map.1 hsub
    exact ⟨_, List.mem_map_of_mem hitem, hpasses⟩

theorem asks_oneOf :
    Asks here inside keywords "oneOf" value inst ↔ ExactlyOne here (listed value.value) := by
  rw [asks_of_demand (.one (alternatives "oneOf" value)
    (.about "oneOf" (noneMessage "oneOf" inst)) (.about "oneOf" (severalMessage inst))) rfl,
    ← map_numbered_itemParts, exactlyOne_map]
  exact exactlyOne_map

theorem asks_not : Asks here inside keywords "not" value inst ↔ ¬ here value.value :=
  asks_of_demand (.not (.here ["not"] value)
    (.about "not" (value.value.compact ++ " is not allowed for " ++ inst.compact))) rfl

theorem asks_if : Asks here inside keywords "if" value inst ↔
    (∀ sub, schema.get? "then" = some sub → here value.value → here sub) ∧
      (∀ sub, schema.get? "else" = some sub → ¬ here value.value → here sub) := by
  have hdemands : (applicatorDemands keywords "if" value : List (Demand (Application schema inst))) =
      conditionDemands value := rfl
  rw [Asks, hdemands, conditionDemands]
  cases hthen : schema.part? "then" with
  | none =>
    cases helse : schema.part? "else" with
    | none => simp [Json.part?_eq_none.1 hthen, Json.part?_eq_none.1 helse]
    | some no =>
      simp [Json.part?_eq_none.1 hthen, Json.part?_eq_some.1 helse, Demand.Holds,
        Application.Passes]
  | some yes =>
    cases helse : schema.part? "else" with
    | none =>
      simp [Json.part?_eq_some.1 hthen, Json.part?_eq_none.1 helse, Demand.Holds,
        Application.Passes]
    | some no =>
      simp [Json.part?_eq_some.1 hthen, Json.part?_eq_some.1 helse, Demand.Holds,
        Application.Passes]

/-- The keywords that apply schemas. -/
def applicatorKeywords : List String :=
  ["allOf", "anyOf", "oneOf", "not", "if", "properties", "patternProperties",
    "additionalProperties", "propertyNames", "dependencies", "items", "additionalItems", "contains"]

theorem asks_of_not_mem {keyword : String} {value : Part schema} (h : keyword ∉ applicatorKeywords) :
    Asks here inside keywords keyword value inst := by
  refine asks_of_nil ?_
  unfold applicatorDemands
  split <;> first | rfl | exact absurd (by simp [applicatorKeywords]) h

/-! ## Keywords that may be absent -/

/-- What a keyword asks if it is present. -/
def Answers (here : Json → Prop) (inside : Json → Json → Prop) (keywords : Fields)
    (keyword : String) (inst : Json) : Prop :=
  ∀ value : Part (.object keywords), keywords.get? keyword = some value.value →
    Asks here inside keywords keyword value inst

theorem answers_of_absent {keyword : String} (h : keywords.get? keyword = none) :
    Answers here inside keywords keyword inst := by
  intro value hvalue
  rw [h] at hvalue
  cases hvalue

theorem answers_of_present {keyword : String} {given : Json}
    (h : keywords.get? keyword = some given) :
    ∃ value : Part (.object keywords), value.value = given ∧
      (Answers here inside keywords keyword inst ↔ Asks here inside keywords keyword value inst) := by
  have hsize : sizeOf given < sizeOf (Json.object keywords) :=
    Json.sizeOf_get?_lt (h : (Json.object keywords).get? keyword = some given)
  refine ⟨⟨given, hsize⟩, rfl, fun hall => hall _ h, fun hone value hvalue => ?_⟩
  have hsame : value = ⟨given, hsize⟩ := Part.ext (Option.some.inj (hvalue.symm.trans h))
  exact hsame ▸ hone

theorem answers_iff {keyword : String} {asked : Json → Prop}
    (h : ∀ value : Part (.object keywords), keywords.get? keyword = some value.value →
      (Asks here inside keywords keyword value inst ↔ asked value.value)) :
    Answers here inside keywords keyword inst ↔
      ∀ given, keywords.get? keyword = some given → asked given := by
  constructor
  · intro hall given hgiven
    obtain ⟨value, rfl, hasks⟩ := answers_of_present hgiven
    exact (h value hgiven).1 (hasks.1 hall)
  · exact fun hall value hvalue => (h value hvalue).2 (hall _ hvalue)

theorem answers_of_kind {keyword : String} (h : ∀ value : Part (.object keywords),
    (applicatorDemands keywords keyword value : List (Demand (Application _ inst))) = []) :
    Answers here inside keywords keyword inst :=
  fun value _ => asks_of_nil (h value)

end

end ApiContract
