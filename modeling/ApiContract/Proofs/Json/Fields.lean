import ApiContract.Json.Basic

/-! # Fields by key

The fields of an object as a map: what `insert`, `erase` and `insertIfAbsent` do to `get?`, and the
objects of documents, whose keys increase strictly.

* `Fields.get?_insert`, `Fields.get?_erase`: the view by key.
* `Fields.Ordered`: strictly increasing keys; then `get?` and membership agree.
* `Json.ordered`: every object in a value is so. Every document is. -/

set_option autoImplicit false

namespace ApiContract

namespace Fields

variable {key other : String} {value : Json} {fields : Fields}

/-! ## The view by key -/

@[simp] theorem get?_nil : get? key [] = none := rfl

theorem get?_cons (key other : String) (value : Json) (rest : Fields) :
    get? key ((other, value) :: rest) = if other = key then some value else get? key rest := by
  simp [get?]

@[simp] theorem get?_insert (key other : String) (value : Json) (fields : Fields) :
    get? other (insert key value fields) = if key = other then some value else get? other fields := by
  induction fields with
  | nil => simp [insert, get?_cons]
  | cons field rest ih =>
    obtain ⟨k, v⟩ := field
    by_cases hk : k = key
    · subst hk
      by_cases ho : k = other
      · simp [insert, get?_cons, ho]
      · simp [insert, get?_cons, ho]
    · by_cases hlt : key < k
      · simp [insert, get?_cons, hk, hlt]
      · by_cases hko : k = other
        · subst hko
          have hne : ¬ key = k := fun e => hk e.symm
          simp [insert, get?_cons, hk, hlt, hne]
        · simp [insert, get?_cons, hk, hlt, hko, ih]

@[simp] theorem get?_erase (key other : String) (fields : Fields) :
    get? other (erase key fields) = if key = other then none else get? other fields := by
  induction fields with
  | nil => simp [erase]
  | cons field rest ih =>
    obtain ⟨k, v⟩ := field
    by_cases hk : k = key
    · subst hk
      have hstep : erase k ((k, v) :: rest) = erase k rest := by simp [erase]
      rw [hstep, ih, get?_cons]
      by_cases ho : k = other <;> simp [ho]
    · have hstep : erase key ((k, v) :: rest) = (k, v) :: erase key rest := by simp [erase, hk]
      rw [hstep, get?_cons, get?_cons, ih]
      by_cases hko : k = other
      · have hne : ¬ key = other := fun e => hk (hko.trans e.symm)
        simp [hko, hne]
      · simp [hko]

theorem hasKey_iff : fields.hasKey key = true ↔ ∃ value, get? key fields = some value := by
  rw [hasKey, Option.isSome_iff_exists]

theorem hasKey_eq_false_iff : fields.hasKey key = false ↔ get? key fields = none := by
  rw [hasKey, Option.isSome_eq_false_iff, Option.isNone_iff_eq_none]

theorem get?_insertIfAbsent (key other : String) (value : Json) (fields : Fields) :
    get? other (insertIfAbsent key value fields) =
      if key = other then some ((get? key fields).getD value) else get? other fields := by
  unfold insertIfAbsent
  by_cases hkey : fields.hasKey key
  · obtain ⟨known, hknown⟩ := hasKey_iff.1 hkey
    by_cases ho : key = other
    · subst ho
      simp [hkey, hknown]
    · simp [hkey, ho]
  · have hnone : get? key fields = none := hasKey_eq_false_iff.1 (by simpa using hkey)
    simp [hkey, hnone]

theorem mem_of_get? (h : get? key fields = some value) : (key, value) ∈ fields := by
  induction fields with
  | nil => simp at h
  | cons field rest ih =>
    obtain ⟨k, v⟩ := field
    rw [get?_cons] at h
    by_cases hk : k = key
    · rw [if_pos hk, Option.some.injEq] at h
      subst hk h
      exact List.mem_cons_self ..
    · rw [if_neg hk] at h
      exact List.mem_cons_of_mem _ (ih h)

/-! ## Ordered fields -/

/-- Keys that increase strictly. -/
def Ordered (fields : Fields) : Prop := (fields.map (·.1)).Pairwise (· < ·)

instance (fields : Fields) : Decidable fields.Ordered :=
  inferInstanceAs (Decidable (List.Pairwise _ _))

@[simp] theorem ordered_nil : Ordered [] := List.Pairwise.nil

/-- Closed keys are in order by computation, whatever stands under them. -/
theorem ordered_of_keys {fields : Fields} {keys : List String} (hkeys : fields.map Prod.fst = keys)
    (h : keys.Pairwise (· < ·)) : fields.Ordered := by
  rw [← hkeys] at h
  exact h

theorem ordered_cons {rest : Fields} :
    Ordered ((key, value) :: rest) ↔ (∀ field ∈ rest, key < field.1) ∧ Ordered rest := by
  simp [Ordered]

theorem get?_of_mem (ho : fields.Ordered) (h : (key, value) ∈ fields) :
    get? key fields = some value := by
  induction fields with
  | nil => simp at h
  | cons field rest ih =>
    obtain ⟨k, v⟩ := field
    obtain ⟨hfirst, hrest⟩ := ordered_cons.1 ho
    rcases List.mem_cons.1 h with heq | hmem
    · obtain ⟨rfl, rfl⟩ := Prod.mk.inj heq
      simp [get?_cons]
    · have hne : ¬ k = key := by
        intro e
        have hlt := hfirst (key, value) hmem
        rw [e] at hlt
        exact String.lt_irrefl _ hlt
      rw [get?_cons, if_neg hne]
      exact ih hrest hmem

theorem mem_iff_get? (ho : fields.Ordered) :
    (key, value) ∈ fields ↔ get? key fields = some value :=
  ⟨get?_of_mem ho, mem_of_get?⟩

theorem forall_get?_iff {p : String → Json → Prop} (ho : fields.Ordered) :
    (∀ key value, get? key fields = some value → p key value) ↔
      ∀ field ∈ fields, p field.1 field.2 :=
  ⟨fun h field hfield => h field.1 field.2 (get?_of_mem ho hfield),
    fun h key value hvalue => h (key, value) (mem_of_get? hvalue)⟩

theorem mem_insert {field : String × Json} (h : field ∈ insert key value fields) :
    field = (key, value) ∨ field ∈ fields := by
  induction fields with
  | nil => exact .inl (by simpa [insert] using h)
  | cons head rest ih =>
    obtain ⟨k, v⟩ := head
    by_cases hk : k = key
    · simp only [insert, hk, beq_self_eq_true, if_true, List.mem_cons] at h
      rcases h with h | h
      · exact .inl h
      · exact .inr (List.mem_cons_of_mem _ h)
    · by_cases hlt : key < k
      · simp only [insert, beq_iff_eq, hk, if_false, hlt, if_true, List.mem_cons] at h
        rcases h with h | h
        · exact .inl h
        · exact .inr (List.mem_cons.2 h)
      · simp only [insert, beq_iff_eq, hk, if_false, hlt, List.mem_cons] at h
        rcases h with h | h
        · exact .inr (h ▸ List.mem_cons_self ..)
        · rcases ih h with h | h
          · exact .inl h
          · exact .inr (List.mem_cons_of_mem _ h)

theorem Ordered.insert (ho : fields.Ordered) (key : String) (value : Json) :
    (Fields.insert key value fields).Ordered := by
  induction fields with
  | nil => simp [Fields.insert, Ordered]
  | cons head rest ih =>
    obtain ⟨k, v⟩ := head
    obtain ⟨hfirst, hrest⟩ := ordered_cons.1 ho
    by_cases hk : k = key
    · simp only [Fields.insert, hk, beq_self_eq_true, if_true]
      exact ordered_cons.2 ⟨hk ▸ hfirst, hrest⟩
    · by_cases hlt : key < k
      · simp only [Fields.insert, beq_iff_eq, hk, if_false, hlt, if_true]
        refine ordered_cons.2 ⟨fun field hfield => ?_, ho⟩
        rcases List.mem_cons.1 hfield with rfl | hmem
        · exact hlt
        · exact String.lt_trans hlt (hfirst field hmem)
      · simp only [Fields.insert, beq_iff_eq, hk, if_false, hlt]
        refine ordered_cons.2 ⟨fun field hfield => ?_, ih hrest⟩
        rcases mem_insert hfield with rfl | hmem
        · have hle : k ≤ key := String.not_lt.1 hlt
          exact Decidable.byContradiction fun hge =>
            hk (String.le_antisymm hle (String.not_lt.1 hge))
        · exact hfirst field hmem

theorem Ordered.erase (ho : fields.Ordered) (key : String) : (Fields.erase key fields).Ordered :=
  List.Pairwise.sublist (List.Sublist.map _ List.filter_sublist) ho

theorem Ordered.insertIfAbsent (ho : fields.Ordered) (key : String) (value : Json) :
    (Fields.insertIfAbsent key value fields).Ordered := by
  unfold Fields.insertIfAbsent
  split
  · exact ho
  · exact ho.insert key value

/-- Ordered fields with the same values by key are the same fields. -/
theorem Ordered.ext {fields given : Fields} (ho : fields.Ordered) (hg : given.Ordered)
    (h : ∀ key, get? key fields = get? key given) : fields = given := by
  have hmem : ∀ field, field ∈ fields ↔ field ∈ given := by
    intro ⟨k, v⟩
    rw [mem_iff_get? ho, mem_iff_get? hg, h]
  have hpair : ∀ {l : Fields}, l.Ordered → l.Pairwise (fun a b => a.1 < b.1) :=
    fun hl => List.pairwise_map.1 hl
  have hne : ∀ {a b : String × Json}, a.1 < b.1 → a ≠ b := by
    rintro a b hlt rfl
    exact String.lt_irrefl _ hlt
  have hperm : fields.Perm given :=
    (List.perm_ext_iff_of_nodup ((hpair ho).imp hne) ((hpair hg).imp hne)).2 hmem
  refine hperm.eq_of_pairwise ?_ (hpair ho) (hpair hg)
  intro a b _ _ hab hba
  exact absurd hba (String.lt_asymm hab)

end Fields

/-! ## Ordered values -/

namespace Json

mutual

/-- Whether every object in a value has its keys in order. -/
def ordered : Json → Bool
  | object fields => decide (Fields.Ordered fields) && orderedFields fields
  | array items => orderedItems items
  | _ => true

def orderedItems : List Json → Bool
  | [] => true
  | item :: rest => ordered item && orderedItems rest

def orderedFields : Fields → Bool
  | [] => true
  | (_, value) :: rest => ordered value && orderedFields rest

end

theorem orderedItems_iff (items : List Json) :
    orderedItems items = true ↔ ∀ item ∈ items, item.ordered = true := by
  induction items with
  | nil => simp [orderedItems]
  | cons item rest ih => simp [orderedItems, ih]

theorem orderedFields_iff (fields : Fields) :
    orderedFields fields = true ↔ ∀ field ∈ fields, field.2.ordered = true := by
  induction fields with
  | nil => simp [orderedFields]
  | cons field rest ih => simp [orderedFields, ih]

theorem ordered_object {fields : Fields} :
    (object fields).ordered = true ↔ fields.Ordered ∧ ∀ field ∈ fields, field.2.ordered = true := by
  rw [ordered, Bool.and_eq_true, decide_eq_true_iff, orderedFields_iff]

theorem ordered_array {items : List Json} :
    (array items).ordered = true ↔ ∀ item ∈ items, item.ordered = true := by
  rw [ordered, orderedItems_iff]

theorem ordered_of_get? {key : String} {value part : Json} (ho : value.ordered = true)
    (h : value.get? key = some part) : part.ordered = true := by
  cases value with
  | object fields => exact (ordered_object.1 ho).2 _ (Fields.mem_of_get? h)
  | _ => simp [get?] at h

end Json

section

variable {base : Fields}

theorem ordered_erase (h : (Json.object base).ordered = true) (key : String) :
    (Json.object (base.erase key)).ordered = true := by
  rw [Json.ordered_object] at h ⊢
  exact ⟨h.1.erase key, fun field hfield => h.2 field (List.mem_filter.1 hfield).1⟩

theorem ordered_insert {key : String} {value : Json} (h : (Json.object base).ordered = true)
    (hvalue : value.ordered = true) : (Json.object (base.insert key value)).ordered = true := by
  rw [Json.ordered_object] at h ⊢
  refine ⟨h.1.insert key value, fun field hfield => ?_⟩
  rcases Fields.mem_insert hfield with rfl | hmem
  · exact hvalue
  · exact h.2 field hmem

theorem ordered_insertIfAbsent {key : String} {value : Json} (h : (Json.object base).ordered = true)
    (hvalue : value.ordered = true) : (Json.object (base.insertIfAbsent key value)).ordered = true := by
  unfold Fields.insertIfAbsent
  split
  · exact h
  · exact ordered_insert h hvalue

end

end ApiContract
