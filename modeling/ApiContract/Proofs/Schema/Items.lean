import ApiContract.Proofs.Schema.Demands

/-! # Items of an array

The keywords `items` and `additionalItems` give each place of an array at most one schema.

* `itemSchema?`: the schema of a place.
* `ItemsPass`, `answers_itemKeywords`: what the two keywords ask.
* `answers_contains`: the keyword that asks for one item. -/

set_option autoImplicit false

namespace ApiContract

/-- The schema of an item: that of its place in a tuple, or the one for all (other) items. -/
def itemSchema? (keywords : Fields) (place : Nat) : Option Json :=
  match keywords.get? "items" with
  | some (.array tuple) =>
    tuple[place]?.or ((keywords.get? "additionalItems").filter isItemSchema)
  | other => other.filter isItemSchema

section

variable {schema inst : Json} {here : Json → Prop} {inside : Json → Json → Prop}
  {keywords : Fields} {value : Part schema}

theorem mem_numbered_itemParts {items : List Json} {i : Nat} {item : Json} :
    (∃ part : Part (.array items), part.value = item ∧
        (i, part) ∈ numbered (Json.itemParts (.array items))) ↔ items[i]? = some item := by
  have hmap := Json.map_value_itemParts items
  constructor
  · rintro ⟨part, rfl, hpart⟩
    have hget : ((Json.itemParts (.array items)).map Part.value)[i]? = some part.value := by
      rw [List.getElem?_map, mem_numbered.1 hpart]
      rfl
    rwa [hmap] at hget
  · intro h
    rw [← hmap, List.getElem?_map, Option.map_eq_some_iff] at h
    obtain ⟨part, hpart, hitem⟩ := h
    exact ⟨part, hitem, mem_numbered.2 hpart⟩

theorem mem_drop_numbered {α : Type} {items : List α} {start i : Nat} {item : α} :
    (i, item) ∈ (numbered items).drop start ↔ start ≤ i ∧ items[i]? = some item := by
  have hget : ∀ n : Nat, (numbered items)[n]? = some (i, item) ↔ n = i ∧ items[n]? = some item := by
    intro n
    rw [numbered, List.getElem?_zip_eq_some]
    constructor
    · rintro ⟨hi, hitem⟩
      obtain ⟨hlt, hval⟩ := List.getElem?_eq_some_iff.1 hi
      rw [List.getElem_range] at hval
      exact ⟨hval, hitem⟩
    · rintro ⟨rfl, hitem⟩
      obtain ⟨hlt, -⟩ := List.getElem?_eq_some_iff.1 hitem
      exact ⟨by simp [hlt], hitem⟩
  rw [List.mem_iff_getElem?]
  simp only [List.getElem?_drop, hget]
  constructor
  · rintro ⟨n, rfl, hitem⟩
    exact ⟨Nat.le_add_right .., hitem⟩
  · rintro ⟨hle, hitem⟩
    have hsum : start + (i - start) = i := Nat.add_sub_cancel' hle
    exact ⟨i - start, hsum, hsum.symm ▸ hitem⟩

theorem passes_itemApplications {items : List Json} {keyword : String} {sub : Json} {start : Nat} :
    (∀ a ∈ (itemApplications keyword sub start : List (Application schema (.array items))),
        a.Passes here inside) ↔
      ∀ i item, start ≤ i → items[i]? = some item → inside sub item := by
  unfold itemApplications
  rw [List.forall_mem_map]
  constructor
  · intro h i item hle hitem
    obtain ⟨part, rfl, hpart⟩ := mem_numbered_itemParts.2 hitem
    exact h (i, part) (mem_drop_numbered.2 ⟨hle, mem_numbered.1 hpart⟩)
  · rintro h ⟨i, part⟩ hpart
    obtain ⟨hle, hget⟩ := mem_drop_numbered.1 hpart
    exact h i part.value hle (mem_numbered_itemParts.1 ⟨part, rfl, mem_numbered.2 hget⟩)


theorem mem_zip_numbered {α β : Type} {items : List α} {tuple : List β} {i : Nat} {item : α} {sub : β} :
    ((i, item), sub) ∈ (numbered items).zip tuple ↔ items[i]? = some item ∧ tuple[i]? = some sub := by
  have hplace : ∀ n : Nat, (numbered items)[n]? = some (i, item) → n = i := by
    intro n hn
    rw [numbered, List.getElem?_zip_eq_some] at hn
    obtain ⟨hlt, hval⟩ := List.getElem?_eq_some_iff.1 hn.1
    rwa [List.getElem_range] at hval
  constructor
  · intro hmem
    obtain ⟨n, hn⟩ := List.mem_iff_getElem?.1 hmem
    obtain ⟨hitem, hsub⟩ := List.getElem?_zip_eq_some.1 hn
    exact ⟨mem_numbered.1 (List.mem_of_getElem? hitem), hplace n hitem ▸ hsub⟩
  · rintro ⟨hitem, hsub⟩
    obtain ⟨n, hn⟩ := List.mem_iff_getElem?.1 (mem_numbered.2 hitem)
    have hsub' : tuple[n]? = some sub := (hplace n hn).symm ▸ hsub
    exact List.mem_of_getElem? (List.getElem?_zip_eq_some.2 ⟨hn, hsub'⟩)

theorem passes_tupleApplications {items tuple : List Json} :
    (∀ a ∈ (tupleApplications tuple : List (Application schema (.array items))),
        a.Passes here inside) ↔
      ∀ (i : Nat) item sub, items[i]? = some item → tuple[i]? = some sub → inside sub item := by
  unfold tupleApplications
  rw [List.forall_mem_map]
  constructor
  · intro h i item sub hitem hsub
    obtain ⟨part, rfl, hpart⟩ := mem_numbered_itemParts.2 hitem
    exact h ((i, part), sub) (mem_zip_numbered.2 ⟨mem_numbered.1 hpart, hsub⟩)
  · rintro h ⟨⟨i, part⟩, sub⟩ hmem
    obtain ⟨hpart, hsub⟩ := mem_zip_numbered.1 hmem
    exact h i part.value sub (mem_numbered_itemParts.1 ⟨part, rfl, mem_numbered.2 hpart⟩) hsub

/-- What the keywords for the items of an array ask of them. -/
def ItemsPass (inside : Json → Json → Prop) (keywords : Fields) (items : List Json) : Prop :=
  ∀ i item, items[i]? = some item → ∀ sub, itemSchema? keywords i = some sub → inside sub item

theorem demands_items_of_tuple {items tuple : List Json} {value : Part schema}
    (hvalue : value.value = .array tuple) :
    (applicatorDemands keywords "items" value : List (Demand (Application schema (.array items)))) =
      [.all (tupleApplications tuple)] := by
  obtain ⟨given, hsmaller⟩ := value
  cases hvalue
  rfl

theorem demands_items_of_single {items : List Json} {value : Part schema}
    (hvalue : ∀ tuple, value.value ≠ .array tuple) :
    (applicatorDemands keywords "items" value : List (Demand (Application schema (.array items)))) =
      if isItemSchema value.value then [.all (itemApplications "items" value.value 0)] else [] := by
  obtain ⟨given, hsmaller⟩ := value
  cases given with
  | array tuple => exact absurd rfl (hvalue tuple)
  | _ => rfl

theorem answers_items_of_tuple {items tuple : List Json}
    (hkey : keywords.get? "items" = some (.array tuple)) :
    Answers here inside keywords "items" (.array items) ↔
      ∀ (i : Nat) item sub, items[i]? = some item → tuple[i]? = some sub → inside sub item := by
  obtain ⟨value, hvalue, hasks⟩ := answers_of_present hkey
  rw [hasks, Asks, demands_items_of_tuple hvalue, List.forall_mem_singleton, Demand.Holds,
    passes_tupleApplications]

theorem answers_items_of_single {items : List Json}
    (hsingle : ∀ tuple, keywords.get? "items" ≠ some (.array tuple)) :
    Answers here inside keywords "items" (.array items) ↔ ItemsPass inside keywords items := by
  cases hkey : keywords.get? "items" with
  | none =>
    refine iff_of_true (answers_of_absent hkey) fun i item _ sub hsub => ?_
    rw [itemSchema?, hkey] at hsub
    cases hsub
  | some given =>
    obtain ⟨value, hvalue, hasks⟩ := answers_of_present hkey
    have hnarray : ∀ tuple, given ≠ .array tuple := fun tuple heq =>
      hsingle tuple (heq ▸ hkey)
    have hschema : ∀ i, itemSchema? keywords i = (some given).filter isItemSchema := by
      intro i
      rw [itemSchema?, hkey]
      cases given with
      | array tuple => exact absurd rfl (hnarray tuple)
      | _ => rfl
    rw [hasks, Asks, demands_items_of_single (hvalue ▸ hnarray), hvalue, ItemsPass]
    simp only [hschema]
    by_cases hitem : isItemSchema given = true
    · rw [if_pos hitem, List.forall_mem_singleton, Demand.Holds, passes_itemApplications]
      simp [Option.filter, hitem]
    · rw [if_neg hitem]
      simp [Option.filter, hitem]

theorem answers_additionalItems_of_single {items : List Json}
    (hsingle : ∀ tuple, keywords.get? "items" ≠ some (.array tuple)) :
    Answers here inside keywords "additionalItems" (.array items) := by
  intro value _
  refine asks_of_nil ?_
  show additionalItemDemands keywords value.value items = []
  unfold additionalItemDemands
  split
  · rename_i tuple _ hkey _
    exact absurd hkey (hsingle tuple)
  · rename_i tuple hkey _
    exact absurd hkey (hsingle tuple)
  · rfl

theorem answers_additionalItems_of_tuple {items tuple : List Json}
    (hfalse : ∀ value, ¬ inside (.bool false) value)
    (hkey : keywords.get? "items" = some (.array tuple)) :
    Answers here inside keywords "additionalItems" (.array items) ↔
      ∀ i item sub, tuple.length ≤ i → items[i]? = some item →
        keywords.get? "additionalItems" = some sub → isItemSchema sub = true → inside sub item := by
  cases hextra : keywords.get? "additionalItems" with
  | none => exact iff_of_true (answers_of_absent hextra) (by simp)
  | some given =>
    obtain ⟨value, rfl, hasks⟩ := answers_of_present hextra
    have hdemands : (applicatorDemands keywords "additionalItems" value :
        List (Demand (Application (.object keywords) (.array items)))) =
          additionalItemDemands keywords value.value items := rfl
    rw [hasks, Asks, hdemands]
    unfold additionalItemDemands
    rw [hkey]
    cases hvalue : value.value with
    | object sub =>
      rw [List.forall_mem_singleton, Demand.Holds, passes_itemApplications]
      constructor
      · rintro h i item sub hle hitem hsub -
        exact Option.some.inj hsub ▸ h i item hle hitem
      · exact fun h i item hle hitem => h i item _ hle hitem rfl rfl
    | bool b =>
      cases b with
      | true => exact iff_of_true (by simp) (by simp [isItemSchema])
      | false =>
        by_cases hnone : items.drop tuple.length = []
        · refine iff_of_true (by simp [hnone]) fun i item sub hle hitem => ?_
          have hlength : items.length ≤ tuple.length := List.drop_eq_nil_iff.1 hnone
          rw [List.getElem?_eq_none (Nat.le_trans hlength hle)] at hitem
          cases hitem
        · refine iff_of_false ?_ fun h => ?_
          · simp only [List.isEmpty_iff, hnone, if_false, List.forall_mem_singleton, Demand.Holds,
              not_false_iff]
          · have hlt : tuple.length < items.length := by
              rw [List.drop_eq_nil_iff] at hnone
              omega
            exact hfalse _ (h tuple.length _ _ (Nat.le_refl _) (List.getElem?_eq_getElem hlt) rfl rfl)
    | _ => exact iff_of_true (by simp) (by simp [isItemSchema])

/-- The keywords for the items of an array together. -/
theorem answers_itemKeywords {items : List Json} (hfalse : ∀ value, ¬ inside (.bool false) value) :
    Answers here inside keywords "items" (.array items) ∧
      Answers here inside keywords "additionalItems" (.array items) ↔
        ItemsPass inside keywords items := by
  by_cases htuple : ∃ tuple, keywords.get? "items" = some (.array tuple)
  · obtain ⟨tuple, hkey⟩ := htuple
    rw [answers_items_of_tuple hkey, answers_additionalItems_of_tuple hfalse hkey]
    have hschema : ∀ i sub, itemSchema? keywords i = some sub ↔
        tuple[i]? = some sub ∨ tuple.length ≤ i ∧
          keywords.get? "additionalItems" = some sub ∧ isItemSchema sub = true := by
      intro i sub
      rw [itemSchema?, hkey]
      rcases Nat.lt_or_ge i tuple.length with hlt | hge
      · simp [List.getElem?_eq_getElem hlt, Nat.not_le.2 hlt]
      · simp [hge, Option.filter_eq_some_iff]
    unfold ItemsPass
    simp only [hschema]
    constructor
    · rintro ⟨htuple, hextra⟩ i item hitem sub (hsub | ⟨hle, hsub, hkind⟩)
      · exact htuple i item sub hitem hsub
      · exact hextra i item sub hle hitem hsub hkind
    · intro h
      exact ⟨fun i item sub hitem hsub => h i item hitem sub (.inl hsub),
        fun i item sub hle hitem hsub hkind => h i item hitem sub (.inr ⟨hle, hsub, hkind⟩)⟩
  · have hsingle : ∀ tuple, keywords.get? "items" ≠ some (.array tuple) :=
      fun tuple hkey => htuple ⟨tuple, hkey⟩
    rw [answers_items_of_single hsingle]
    exact and_iff_left (answers_additionalItems_of_single hsingle)

theorem asks_contains {items : List Json} {value : Part schema} :
    Asks here inside keywords "contains" value (.array items) ↔
      ∃ item ∈ items, inside value.value item := by
  rw [asks_of_demand (.some (itemApplications "contains" value.value 0) (.about "contains"
    ("None of " ++ (Json.array items).compact ++ " are valid under the given schema"))) rfl]
  unfold Demand.Holds itemApplications
  constructor
  · rintro ⟨a, ha, hpasses⟩
    obtain ⟨⟨i, part⟩, hpart, rfl⟩ := List.mem_map.1 ha
    obtain ⟨-, hget⟩ := mem_drop_numbered.1 hpart
    have hitem := mem_numbered_itemParts.1 ⟨part, rfl, mem_numbered.2 hget⟩
    exact ⟨part.value, List.mem_of_getElem? hitem, hpasses⟩
  · rintro ⟨item, hmem, hpasses⟩
    obtain ⟨i, hitem⟩ := List.mem_iff_getElem?.1 hmem
    obtain ⟨part, rfl, hpart⟩ := mem_numbered_itemParts.2 hitem
    have hdrop := mem_drop_numbered.2 ⟨Nat.zero_le i, mem_numbered.1 hpart⟩
    exact ⟨_, List.mem_map_of_mem hdrop, hpasses⟩

theorem answers_contains {items : List Json} :
    Answers here inside keywords "contains" (.array items) ↔
      ∀ sub, keywords.get? "contains" = some sub → ∃ item ∈ items, inside sub item :=
  answers_iff fun _ _ => asks_contains

/-- What the keywords for items ask of any instance. -/
theorem answers_array (hfalse : ∀ value, ¬ inside (.bool false) value) :
    (Answers here inside keywords "items" inst ∧
        Answers here inside keywords "additionalItems" inst) ∧
        Answers here inside keywords "contains" inst ↔
      (∀ items, inst = .array items → ItemsPass inside keywords items) ∧
        ∀ items, inst = .array items → ∀ sub, keywords.get? "contains" = some sub →
          ∃ item ∈ items, inside sub item := by
  cases inst with
  | array items =>
    rw [answers_itemKeywords hfalse, answers_contains]
    simp only [Json.array.injEq, forall_eq']
  | _ =>
    refine iff_of_true ⟨⟨?_, ?_⟩, ?_⟩ (by simp)
    all_goals exact answers_of_kind fun _ => rfl

end

end ApiContract
