import ApiContract.Proofs.Query.Telling

/-! # What is left of nested names

The values of a query are put one after the other to the places that their names spell. A later one takes
the place of an earlier one if it comes to the same place, to one on the way there, or to one behind it;
all other values stay.

* `Json.valueAt?`: the value behind a sequence of names.
* `IsLeaf`: the places with a value that is no object.
* `isLeaf_insertNested`: what one insertion does to them.
* `isLeaf_nestFields`: the values of a query that are left, and that no object is left empty. -/

set_option autoImplicit false

namespace ApiContract

/-! ## Places -/

/-- The value to which names lead from object to object. -/
def Json.valueAt? (value : Json) : List String → Option Json
  | [] => some value
  | name :: rest => (value.get? name).bind fun part => part.valueAt? rest

/-- Names that lead to a value which is no object. -/
def IsLeaf (fields : Fields) (names : List String) (value : Json) : Prop :=
  (Json.object fields).valueAt? names = some value ∧ value.isObject = false

/-- Places of which none is on the way to the other; in particular they differ. -/
def Apart (names others : List String) : Prop := ¬ names <+: others ∧ ¬ others <+: names

section

variable {fields target : Fields} {name : String} {names steps rest : List String} {value leaf : Json}

theorem not_isLeaf_nil (fields : Fields) (leaf : Json) : ¬ IsLeaf fields [] leaf := by
  rintro ⟨hvalue, hleaf⟩
  cases hvalue
  cases hleaf

theorem isLeaf_cons : IsLeaf fields (name :: rest) leaf ↔
    ∃ part, fields.get? name = some part ∧ part.valueAt? rest = some leaf ∧ leaf.isObject = false := by
  rw [IsLeaf, Json.valueAt?, Json.get?, Option.bind_eq_some_iff]
  simp only [← and_assoc, exists_and_right]

theorem valueAt?_cons_of_plain (h : value.isObject = false) (name : String) (rest : List String) :
    value.valueAt? (name :: rest) = none := by
  rw [Json.valueAt?, get?_of_not_object h]
  rfl

/-- Behind a value that is no object there is nothing. -/
theorem valueAt?_of_plain (h : value.isObject = false) :
    value.valueAt? rest = some leaf ↔ rest = [] ∧ leaf = value := by
  cases rest with
  | nil =>
    rw [Json.valueAt?, Option.some.injEq, eq_comm (a := value)]
    simp
  | cons next rest =>
    rw [valueAt?_cons_of_plain h]
    simp

theorem apart_cons_same : Apart (name :: steps) (name :: rest) ↔ Apart steps rest := by
  rw [Apart, Apart, List.prefix_cons_inj, List.prefix_cons_inj]

theorem apart_cons_of_ne {other : String} (h : name ≠ other) :
    Apart (name :: steps) (other :: rest) := by
  rw [Apart, List.cons_prefix_cons, List.cons_prefix_cons]
  exact ⟨fun hsame => h hsame.1, fun hsame => h hsame.1.symm⟩

theorem not_apart_nil_left (names : List String) : ¬ Apart [] names :=
  fun h => h.1 List.nil_prefix

theorem not_apart_nil_right (names : List String) : ¬ Apart names [] :=
  fun h => h.2 List.nil_prefix

/-! ## One insertion -/

/-- The object that an insertion goes on in: the one under the name, or a new one. -/
def innerFields (name : String) (target : Fields) : Fields :=
  match target.get? name with
  | some (.object fields) => fields
  | _ => []

theorem insertNested_cons_cons {next : String} {more : List String} :
    insertNested value (name :: next :: more) target =
      target.insert name (.object (insertNested value (next :: more) (innerFields name target))) := rfl

/-- Behind a name there are the leaves of the object under it, and nothing else. -/
theorem isLeaf_innerFields (h : rest ≠ []) :
    IsLeaf (innerFields name target) rest leaf ↔ IsLeaf target (name :: rest) leaf := by
  obtain ⟨next, more, rfl⟩ := List.exists_cons_of_ne_nil h
  nth_rewrite 2 [isLeaf_cons]
  rw [innerFields]
  cases hpart : target.get? name with
  | none => simp [isLeaf_cons]
  | some part =>
    cases part with
    | object fields => simp [IsLeaf]
    | _ => simp [isLeaf_cons, Json.valueAt?, Json.get?]

/-- An insertion puts a leaf to its place, and takes those away that its way crosses. -/
theorem isLeaf_insertNested (hsteps : steps ≠ []) (hvalue : value.isObject = false) :
    IsLeaf (insertNested value steps target) names leaf ↔
      (names = steps ∧ leaf = value) ∨ (IsLeaf target names leaf ∧ Apart steps names) := by
  induction steps generalizing target names with
  | nil => exact absurd rfl hsteps
  | cons step more ih =>
    cases names with
    | nil => simp [not_isLeaf_nil, not_apart_nil_right]
    | cons name rest =>
      cases more with
      | nil =>
        rw [insertNested, isLeaf_cons, Fields.get?_insert]
        by_cases hname : step = name
        · subst hname
          rw [if_pos rfl, apart_cons_same]
          simp only [Option.some.injEq, exists_eq_left', valueAt?_of_plain hvalue, List.cons.injEq,
            true_and, not_apart_nil_left, and_false, or_false]
          exact ⟨fun h => h.1, fun h => ⟨h, h.2 ▸ hvalue⟩⟩
        · rw [if_neg hname, ← isLeaf_cons]
          simp only [apart_cons_of_ne hname, List.cons.injEq, Ne.symm hname, false_and, false_or, and_true]
      | cons next more =>
        rw [insertNested_cons_cons, isLeaf_cons, Fields.get?_insert]
        by_cases hname : step = name
        · subst hname
          rw [if_pos rfl, apart_cons_same]
          have hinner : (∃ part, some (Json.object (insertNested value (next :: more)
                (innerFields step target))) = some part ∧ part.valueAt? rest = some leaf ∧
                  leaf.isObject = false) ↔
              IsLeaf (insertNested value (next :: more) (innerFields step target)) rest leaf := by
            simp [IsLeaf]
          rw [hinner, ih (List.cons_ne_nil _ _)]
          simp only [List.cons.injEq, true_and]
          refine or_congr_right (and_congr_left fun hapart => isLeaf_innerFields ?_)
          rintro rfl
          exact not_apart_nil_right _ hapart
        · rw [if_neg hname, ← isLeaf_cons]
          simp only [apart_cons_of_ne hname, List.cons.injEq, Ne.symm hname, false_and, false_or, and_true]

/-! ## Empty objects -/

/-- No object in a value is empty. -/
def Json.IsFilled (value : Json) : Prop := ∀ names, value.valueAt? names ≠ some (.object [])

theorem Json.isFilled_of_plain (h : value.isObject = false) : value.IsFilled := by
  intro names hnames
  rw [valueAt?_of_plain h] at hnames
  rw [← hnames.2] at h
  cases h

theorem Json.isFilled_object : (Json.object fields).IsFilled ↔
    fields ≠ [] ∧ ∀ name part, fields.get? name = some part → part.IsFilled := by
  constructor
  · intro h
    refine ⟨fun hempty => h [] (by rw [hempty]; rfl), fun name part hpart names hnames => ?_⟩
    refine h (name :: names) ?_
    rw [valueAt?, get?, hpart]
    exact hnames
  · rintro ⟨hfields, hparts⟩ names hnames
    cases names with
    | nil => exact hfields (Json.object.inj (Option.some.inj hnames))
    | cons name rest =>
      obtain ⟨part, hpart, hrest⟩ := Option.bind_eq_some_iff.1 hnames
      exact hparts name part hpart rest hrest

theorem insert_ne_nil (name : String) (value : Json) (fields : Fields) :
    fields.insert name value ≠ [] := by
  intro hempty
  have hget := Fields.get?_insert name name value fields
  rw [hempty, if_pos rfl] at hget
  cases hget

theorem insertNested_ne_nil (hsteps : steps ≠ []) : insertNested value steps target ≠ [] := by
  match steps with
  | [last] => exact insert_ne_nil last value target
  | step :: next :: more => exact insert_ne_nil step _ target

/-- An insertion leaves no object on its way without a value. -/
theorem isFilled_insertNested (hvalue : value.IsFilled)
    (htarget : ∀ name part, target.get? name = some part → part.IsFilled) :
    ∀ name part, (insertNested value steps target).get? name = some part → part.IsFilled := by
  induction steps generalizing target with
  | nil => exact htarget
  | cons step more ih =>
    intro name part hpart
    cases more with
    | nil =>
      rw [insertNested, Fields.get?_insert] at hpart
      by_cases hname : step = name
      · rw [if_pos hname] at hpart
        exact Option.some.inj hpart ▸ hvalue
      · rw [if_neg hname] at hpart
        exact htarget name part hpart
    | cons next more =>
      rw [insertNested_cons_cons, Fields.get?_insert] at hpart
      by_cases hname : step = name
      · rw [if_pos hname] at hpart
        have hinner : ∀ name part, (innerFields step target).get? name = some part → part.IsFilled := by
          intro name part hpart
          rw [innerFields] at hpart
          split at hpart
          · rename_i fields hfields
            exact (Json.isFilled_object.1 (htarget step _ hfields)).2 name part hpart
          · cases hpart
        rw [← Option.some.inj hpart]
        exact Json.isFilled_object.2 ⟨insertNested_ne_nil (List.cons_ne_nil _ _), ih hinner⟩
      · rw [if_neg hname] at hpart
        exact htarget name part hpart

end

/-! ## Whole queries -/

section

variable {fields : Fields} {names : List String} {leaf : Json}

theorem nestFields_concat (fields : Fields) (field : String × Json) :
    nestFields (fields ++ [field]) = insertNested field.2 (nameSteps field.1) (nestFields fields) := by
  rw [nestFields, List.foldl_append, ← nestFields]
  rfl

theorem ordered_concat {field : String × Json} :
    Fields.Ordered (fields ++ [field]) ↔ fields.Ordered ∧ ∀ other ∈ fields, other.1 < field.1 := by
  rw [Fields.Ordered, List.map_append, List.pairwise_append]
  simp [Fields.Ordered]

/-- A value is at its place in the end if no later name crosses the way there. -/
theorem isLeaf_nestFields_iff (hordered : fields.Ordered)
    (hplain : ∀ field ∈ fields, field.2.isObject = false) :
    IsLeaf (nestFields fields) names leaf ↔ ∃ key, (key, leaf) ∈ fields ∧ nameSteps key = names ∧
      ∀ later ∈ fields, key < later.1 → Apart (nameSteps later.1) names := by
  induction fields using List.reverseRecOn with
  | nil =>
    have hnone : ¬ IsLeaf (nestFields []) names leaf := by
      cases names with
      | nil => exact not_isLeaf_nil _ _
      | cons name rest =>
        rw [isLeaf_cons]
        rintro ⟨part, hpart, -⟩
        cases hpart
    simp [hnone]
  | append_singleton fields field ih =>
    obtain ⟨hbefore, hlast⟩ := ordered_concat.1 hordered
    rw [nestFields_concat, isLeaf_insertNested (nameSteps_ne_nil _) (hplain field (by simp)),
      ih hbefore fun other hother => hplain other (List.mem_append_left _ hother)]
    constructor
    · rintro (⟨rfl, rfl⟩ | ⟨⟨key, hmem, hsteps, hlater⟩, hapart⟩)
      · refine ⟨field.1, by simp, rfl, fun later hlater hbehind => ?_⟩
        -- the last key has none behind it
        rcases List.mem_append.1 hlater with hmem | hmem
        · exact absurd hbehind (String.lt_asymm (hlast later hmem))
        · rw [List.mem_singleton.1 hmem] at hbehind
          exact absurd hbehind (String.lt_irrefl _)
      · refine ⟨key, List.mem_append_left _ hmem, hsteps, fun later hmem hbehind => ?_⟩
        rcases List.mem_append.1 hmem with hmem | hmem
        · exact hlater later hmem hbehind
        · exact List.mem_singleton.1 hmem ▸ hapart
    · rintro ⟨key, hmem, hsteps, hlater⟩
      rcases List.mem_append.1 hmem with hmem | hmem
      · refine .inr ⟨⟨key, hmem, hsteps, fun later hother => ?_⟩, ?_⟩
        · exact hlater later (List.mem_append_left _ hother)
        · exact hlater field (by simp) (hlast (key, leaf) hmem)
      · cases List.mem_singleton.1 hmem
        exact .inl ⟨hsteps.symm, rfl⟩

theorem nestFields_parts (hplain : ∀ field ∈ fields, field.2.isObject = false) :
    ∀ name part, (nestFields fields).get? name = some part → part.IsFilled := by
  induction fields using List.reverseRecOn with
  | nil =>
    intro name part hpart
    cases hpart
  | append_singleton fields field ih =>
    rw [nestFields_concat]
    exact isFilled_insertNested (Json.isFilled_of_plain (hplain field (by simp)))
      (ih fun other hother => hplain other (List.mem_append_left _ hother))

theorem nestFields_eq_nil_iff : nestFields fields = [] ↔ fields = [] := by
  refine ⟨fun h => ?_, fun h => by rw [h]; rfl⟩
  induction fields using List.reverseRecOn with
  | nil => rfl
  | append_singleton fields field =>
    rw [nestFields_concat] at h
    exact absurd h (insertNested_ne_nil (nameSteps_ne_nil _))

/-- The leaves of a nested query are the values of those of its names which no later one crosses, at the
places that these names spell. No object of it is empty, the query itself apart if it has no values. -/
theorem isLeaf_nestFields (hordered : fields.Ordered)
    (hplain : ∀ field ∈ fields, field.2.isObject = false) :
    (∀ names leaf, IsLeaf (nestFields fields) names leaf ↔
      ∃ key, (key, leaf) ∈ fields ∧ nameSteps key = names ∧
        ∀ later ∈ fields, key < later.1 →
          ¬ nameSteps later.1 <+: names ∧ ¬ names <+: nameSteps later.1) ∧
    ∀ names, (Json.object (nestFields fields)).valueAt? names = some (.object []) →
      names = [] ∧ fields = [] := by
  refine ⟨fun names leaf => isLeaf_nestFields_iff hordered hplain, fun names hnames => ?_⟩
  by_cases hempty : fields = []
  · subst hempty
    cases names with
    | nil => exact ⟨rfl, rfl⟩
    | cons name rest => cases hnames
  · have hfilled := Json.isFilled_object.2
      ⟨mt nestFields_eq_nil_iff.1 hempty, nestFields_parts hplain⟩
    exact absurd hnames (hfilled names)

end

/-- A query in which later names cross the ways of earlier ones. -/
def crossingQuery : Fields :=
  [("a", .string "1"), ("a[b", .string "2"), ("a[b]", .string "3"), ("a[b][c]", .string "4"),
    ("a[d]", .string "5")]

theorem crossingQuery_steps : crossingQuery.map (fun field => nameSteps field.1) =
    [["a"], ["a", "b"], ["a", "b"], ["a", "b", "c"], ["a", "d"]] := by
  decide +kernel

/-- Of five values two are left: those at `a` and `a[b]` have to make room. -/
theorem crossingQuery_leaves : crossingQuery.Ordered ∧
    (∀ field ∈ crossingQuery, field.2.isObject = false) ∧
    ∀ names leaf, IsLeaf (nestFields crossingQuery) names leaf ↔
      (names = ["a", "b", "c"] ∧ leaf = .string "4") ∨ (names = ["a", "d"] ∧ leaf = .string "5") := by
  have hordered : crossingQuery.Ordered := by decide +kernel
  have hplain : ∀ field ∈ crossingQuery, field.2.isObject = false := by
    simp [crossingQuery, Json.isObject]
  have hsteps := crossingQuery_steps
  have hlt : "a" < "a[b" ∧ "a[b" < "a[b]" ∧ "a[b]" < "a[b][c]" := by decide +kernel
  have hlast : ¬ "a[b][c]" < "a" ∧ ¬ "a[b][c]" < "a[b" ∧ ¬ "a[b][c]" < "a[b]" ∧
      ¬ "a[d]" < "a" ∧ ¬ "a[d]" < "a[b" ∧ ¬ "a[d]" < "a[b]" ∧ ¬ "a[d]" < "a[b][c]" := by
    decide +kernel
  simp only [crossingQuery, List.map_cons, List.map_nil, List.cons.injEq, and_true] at hsteps
  obtain ⟨ha, hopen, hb, hc, hd⟩ := hsteps
  refine ⟨hordered, hplain, fun names leaf => ?_⟩
  rw [(isLeaf_nestFields hordered hplain).1]
  simp only [crossingQuery, List.mem_cons, List.not_mem_nil, or_false, Prod.mk.injEq]
  constructor
  · rintro ⟨key, ⟨rfl, rfl⟩ | ⟨rfl, rfl⟩ | ⟨rfl, rfl⟩ | ⟨rfl, rfl⟩ | ⟨rfl, rfl⟩, rfl, hlater⟩
    · have := hlater ("a[b", .string "2") (by simp) hlt.1
      simp [ha, hopen] at this
    · have := hlater ("a[b]", .string "3") (by simp) hlt.2.1
      simp [hb, hopen] at this
    · have := hlater ("a[b][c]", .string "4") (by simp) hlt.2.2
      simp [hb, hc] at this
    · exact .inl ⟨hc, rfl⟩
    · exact .inr ⟨hd, rfl⟩
  · rintro (⟨rfl, rfl⟩ | ⟨rfl, rfl⟩)
    · refine ⟨"a[b][c]", by simp, hc, ?_⟩
      rintro later (rfl | rfl | rfl | rfl | rfl) <;> simp [hlast, hd]
    · refine ⟨"a[d]", by simp, hd, ?_⟩
      rintro later (rfl | rfl | rfl | rfl | rfl) <;> simp [hlast]

end ApiContract
