import ApiContract.Schema.Compiled
import ApiContract.Proofs.Schema.Items
import ApiContract.Proofs.Schema.Members

/-! # What the guard reports

The guard of discriminated schemas as a relation: a schema is faulty for an instance if the way of the
guard leads to an instance whose tag selects no case.

* `Faulty`: one constructor for each kind of step of the guard.
* `guardWith_eq_nil_iff`: the guard is silent exactly if there is no fault.
* `not_faulty_of_unguarded`: the guard goes on by a few keywords only.
* `CompiledSchema.accepts_iff`: acceptance as the absence of findings and of faults. -/

set_option autoImplicit false

namespace ApiContract

/-! ## The way of the guard -/

/-- The schemas of `allOf` that the guard enters: those without a condition. -/
def guardedConjuncts (schema : Json) : List Json :=
  (listed ((schema.get? "allOf").getD .null)).filter fun sub => (sub.get? "if").isNone

/-- The schema of an item on the way of the guard. -/
def guardedItem? (schema : Json) (place : Nat) : Option Json :=
  match schema.get? "items" with
  | some (.object keywords) => some (.object keywords)
  | some (.array tuple) => tuple[place]?
  | _ => none

/-- The guard meets an instance that selects no case. -/
inductive Faulty (root : Json) (known : List String) : List String → Json → Json → Prop where
  | reference {pool : List String} {schema target inst : Json} {reference : String}
    (href : schema.reference? = some reference) (hpool : reference ∈ pool)
    (htarget : root.resolve? reference = some target)
    (h : Faulty root known (withoutReference reference pool) target inst) :
    Faulty root known pool schema inst
  | unselected {pool : List String} {schema inst : Json} {message : String}
    (href : schema.reference? = none) (h : selection schema inst = .fault message) :
    Faulty root known pool schema inst
  | case {pool : List String} {schema inst : Json} {value : String} {branch : Part schema}
    (href : schema.reference? = none) (hcase : selection schema inst = .case value branch)
    (h : Faulty root known pool branch.value inst) :
    Faulty root known pool schema inst
  | conjunct {pool : List String} {schema sub inst : Json}
    (href : schema.reference? = none) (hsub : sub ∈ guardedConjuncts schema)
    (h : Faulty root known pool sub inst) :
    Faulty root known pool schema inst
  | property {pool steps : List String} {schema sub value : Json} {fields : Fields} {name : String}
    (href : schema.reference? = none) (hmem : (name, value) ∈ fields)
    (hsub : propertySchema? schema name = some (steps, sub))
    (h : Faulty root known known sub value) :
    Faulty root known pool schema (.object fields)
  | item {pool : List String} {schema sub item : Json} {items : List Json} {i : Nat}
    (href : schema.reference? = none) (hitem : items[i]? = some item)
    (hsub : guardedItem? schema i = some sub)
    (h : Faulty root known known sub item) :
    Faulty root known pool schema (.array items)

/-! ## The applications of the guard -/

section

variable {schema inst : Json} {here : Json → Prop} {inside : Json → Json → Prop}

theorem passes_unconditional :
    (∀ a ∈ (unconditional : List (Application schema inst)), a.Passes here inside) ↔
      ∀ sub ∈ guardedConjuncts schema, here sub := by
  unfold unconditional guardedConjuncts
  cases hall : schema.part? "allOf" with
  | none => simp [Json.part?_eq_none.1 hall, listed, Json.items?]
  | some list =>
    rw [Json.part?_eq_some.1 hall]
    simp only [Option.toList_some, List.flatMap_singleton, Option.getD_some, List.forall_mem_map,
      List.mem_filter, Application.Passes]
    constructor
    · rintro h sub ⟨hsub, hif⟩
      cases hvalue : list.value with
      | array items =>
        rw [hvalue] at hsub
        have hsize : sizeOf sub < sizeOf schema := by
          have hlist := list.smaller
          have hitem : sizeOf sub < sizeOf items := List.sizeOf_lt_of_mem hsub
          rw [hvalue, Json.array.sizeOf_spec] at hlist
          omega
        have hpart : (⟨sub, hsize⟩ : Part schema) ∈ list.items :=
          Part.mem_items.2 ⟨items, hvalue, hsub⟩
        obtain ⟨i, hi⟩ := List.mem_iff_getElem?.1 hpart
        exact h (i, ⟨sub, hsize⟩) ⟨mem_numbered.2 hi, hif⟩
      | _ => rw [hvalue] at hsub; cases hsub
    · rintro h ⟨i, part⟩ ⟨hpart, hif⟩
      obtain ⟨items, hitems, hmem⟩ := Part.mem_items.1 (List.mem_of_getElem? (mem_numbered.1 hpart))
      exact h part.value ⟨by rw [hitems]; exact hmem, hif⟩

theorem passes_guardedProperties :
    (∀ a ∈ inst.fieldParts.flatMap (fun field =>
        (propertySchema? schema field.1).toList.map fun sub =>
          (Application.inside sub.1 sub.2 [field.1] field.2 : Application schema inst)),
        a.Passes here inside) ↔
      ∀ fields, inst = .object fields → ∀ name value, (name, value) ∈ fields →
        ∀ steps sub, propertySchema? schema name = some (steps, sub) → inside sub value := by
  rw [List.forall_mem_flatMap]
  simp only [List.forall_mem_map, Option.mem_toList, Application.Passes]
  constructor
  · intro h fields hinst name value hmem steps sub hsub
    obtain ⟨part, rfl, hpart⟩ := exists_fieldPart hinst hmem
    exact h (name, part) hpart (steps, sub) hsub
  · rintro h ⟨name, part⟩ hpart ⟨steps, sub⟩ hsub
    obtain ⟨fields, hinst, hmem⟩ := Json.mem_fieldParts.1 hpart
    exact h fields hinst name part.value hmem steps sub hsub

theorem passes_guardedItems :
    (∀ a ∈ (match schema.get? "items" with
        | some (.object keywords) => itemApplications "items" (.object keywords) 0
        | some (.array schemas) => tupleApplications schemas
        | _ => [] : List (Application schema inst)), a.Passes here inside) ↔
      ∀ items, inst = .array items → ∀ (i : Nat) item, items[i]? = some item →
        ∀ sub, guardedItem? schema i = some sub → inside sub item := by
  unfold guardedItem?
  cases inst with
  | array items =>
    simp only [Json.array.injEq, forall_eq']
    split
    · rw [passes_itemApplications]
      simp
    · rw [passes_tupleApplications]
      exact ⟨fun h i item hitem sub hsub => h i item sub hitem hsub,
        fun h i item sub hitem hsub => h i item hitem sub hsub⟩
    · simp
  | _ =>
    refine iff_of_true ?_ (by simp)
    split <;> simp [itemApplications, tupleApplications, numbered, Json.itemParts]

theorem passes_guardedParts :
    (∀ a ∈ (guardedParts : List (Application schema inst)), a.Passes here inside) ↔
      (∀ fields, inst = .object fields → ∀ name value, (name, value) ∈ fields →
        ∀ steps sub, propertySchema? schema name = some (steps, sub) → inside sub value) ∧
      ∀ items, inst = .array items → ∀ (i : Nat) item, items[i]? = some item →
        ∀ sub, guardedItem? schema i = some sub → inside sub item := by
  unfold guardedParts
  rw [List.forall_mem_append]
  exact and_congr passes_guardedProperties passes_guardedItems

end

/-! ## Faults and violations -/

theorem reference?_object {keywords : Fields} :
    (Json.object keywords).reference? = none ↔
      ∀ reference, keywords.get? "$ref" ≠ some (.string reference) := by
  rw [Json.reference?, Json.getString?, Json.get?]
  cases keywords.get? "$ref" with
  | none => simp
  | some value => cases value <;> simp [Json.string?]

section

variable {root schema inst : Json} {known pool : List String}

theorem not_faulty_reference {reference : String} (href : schema.reference? = some reference) :
    ¬ Faulty root known pool schema inst ↔
      (reference ∈ pool → ∀ target, root.resolve? reference = some target →
        ¬ Faulty root known (withoutReference reference pool) target inst) := by
  constructor
  · intro h hpool target htarget hfaulty
    exact h (.reference href hpool htarget hfaulty)
  · intro h hfaulty
    cases hfaulty with
    | reference hr hpool htarget hfault =>
      rw [href, Option.some.injEq] at hr
      subst hr
      exact h hpool _ htarget hfault
    | unselected hr => rw [href] at hr; cases hr
    | case hr => rw [href] at hr; cases hr
    | conjunct hr => rw [href] at hr; cases hr
    | property hr => rw [href] at hr; cases hr
    | item hr => rw [href] at hr; cases hr

/-- Whether the tag of an instance selects a case, and one without a fault, if there are cases. -/
def Selected {schema : Json} (here : Json → Prop) : Selection schema → Prop
  | .nothing => True
  | .case _ branch => here branch.value
  | .fault _ => False

theorem not_faulty_keywords (href : schema.reference? = none) :
    ¬ Faulty root known pool schema inst ↔
      Selected (fun sub => ¬ Faulty root known pool sub inst) (selection schema inst) ∧
        (∀ a ∈ (unconditional : List (Application schema inst)),
          a.Passes (fun sub => ¬ Faulty root known pool sub inst)
            (fun sub value => ¬ Faulty root known known sub value)) ∧
        ∀ a ∈ (guardedParts : List (Application schema inst)),
          a.Passes (fun sub => ¬ Faulty root known pool sub inst)
            (fun sub value => ¬ Faulty root known known sub value) := by
  rw [passes_unconditional, passes_guardedParts]
  constructor
  · intro h
    refine ⟨?_, fun sub hsub hfaulty => h (.conjunct href hsub hfaulty), ?_, ?_⟩
    · cases hselection : selection schema inst with
      | nothing => trivial
      | case value branch => exact fun hfaulty => h (.case href hselection hfaulty)
      | fault message => exact h (.unselected href hselection)
    · rintro fields rfl name value hmem steps sub hsub hfaulty
      exact h (.property href hmem hsub hfaulty)
    · rintro items rfl i item hitem sub hsub hfaulty
      exact h (.item href hitem hsub hfaulty)
  · rintro ⟨hselected, hall, hproperties, hitems⟩ hfaulty
    cases hfaulty with
    | reference hr => rw [href] at hr; cases hr
    | unselected _ hselection => rw [hselection] at hselected; exact hselected
    | case _ hselection hfault => rw [hselection] at hselected; exact hselected hfault
    | conjunct _ hsub hfault => exact hall _ hsub hfault
    | property _ hmem hsub hfault => exact hproperties _ rfl _ _ hmem _ _ hsub hfault
    | item _ hitem hsub hfault => exact hitems _ rfl _ _ hitem _ hsub hfault

theorem not_faulty_of_not_object (h : schema.isObject = false) :
    ¬ Faulty root known pool schema inst := by
  have hget : ∀ key, schema.get? key = none := get?_of_not_object h
  have hpart : ∀ key, schema.part? key = none := fun key => Json.part?_eq_none.2 (hget key)
  have href : schema.reference? = none := by
    rw [Json.reference?, Json.getString?, hget]
    rfl
  have hselection : selection schema inst = .nothing := by
    rw [selection, casesAndTag?, hpart]
  rw [not_faulty_keywords href, hselection, passes_unconditional, passes_guardedParts]
  simp [Selected, guardedConjuncts, guardedItem?, propertySchema?, hget, listed, Json.items?]

/-- The guard is silent exactly if it meets no fault, wherever it is said to stand. -/
theorem guardWith_eq_nil_iff (root : Json) (known pool : List String) (place : SchemaPlace)
    (path : List String) (schema inst : Json) :
    guardWith root known pool place path schema inst = [] ↔ ¬ Faulty root known pool schema inst := by
  rw [guardWith]
  by_cases hobject : schema.isObject = true
  · rw [if_pos hobject]
    cases href : schema.reference? with
    | some reference =>
      rw [not_faulty_reference href]
      by_cases hpool : reference ∈ pool
      · cases htarget : root.resolve? reference with
        | none => simp [hpool, htarget]
        | some target =>
          have ih := guardWith_eq_nil_iff root known (withoutReference reference pool)
            ⟨reference, []⟩ path target inst
          simp [hpool, htarget, ih]
      · simp [hpool]
    | none =>
      rw [not_faulty_keywords href]
      simp only [List.append_eq_nil_iff, List.flatMap_eq_nil_iff, and_assoc]
      refine and_congr ?_ (and_congr ?_ ?_)
      · cases selection schema inst with
        | nothing => simp [Selected]
        | case value branch =>
          exact guardWith_eq_nil_iff root known pool (place.child [casesKeyword, value]) path
            branch.value inst
        | fault message => simp [Selected]
      all_goals
        refine forall_congr' fun a => imp_congr_right fun _ => ?_
        cases a with
        | here steps part =>
          exact guardWith_eq_nil_iff root known pool (place.child steps) path part.value inst
        | inside steps sub inner part =>
          exact guardWith_eq_nil_iff root known known (place.child steps) (path ++ inner) sub
            part.value
  · rw [if_neg hobject]
    exact iff_of_true rfl (not_faulty_of_not_object (by simpa using hobject))
termination_by (sizeOf inst, pool.length, sizeOf schema)
decreasing_by
  all_goals first
    | exact Prod.Lex.right _ (Prod.Lex.left _ _ (length_withoutReference_lt hpool))
    | exact Prod.Lex.right _ (Prod.Lex.right _ branch.smaller)
    | exact Prod.Lex.right _ (Prod.Lex.right _ part.smaller)
    | exact Prod.Lex.left _ _ part.smaller

end

/-! ## The keywords of the guard -/

theorem selection_of_no_cases {inst : Json} {keywords : Fields} (h : keywords.get? casesKeyword = none) :
    selection (.object keywords) inst = .nothing := by
  have hpart : (Json.object keywords).part? casesKeyword = none := Json.part?_eq_none.2 h
  rw [selection, casesAndTag?, hpart]

/-- The keywords by which the guard goes on. -/
def guardKeywords : List String :=
  ["$ref", casesKeyword, "allOf", "properties", "additionalProperties", "items"]

/-- Without any of its keywords the guard does not go on, whatever else a schema says. -/
theorem not_faulty_of_unguarded {root inst : Json} {known pool : List String} {keywords : Fields}
    (h : ∀ key ∈ guardKeywords, keywords.get? key = none) :
    ¬ Faulty root known pool (.object keywords) inst := by
  have hget : ∀ key ∈ guardKeywords, (Json.object keywords).get? key = none := h
  have href : (Json.object keywords).reference? = none := by
    rw [Json.reference?, Json.getString?, hget _ (by decide)]
    rfl
  rw [not_faulty_keywords href, selection_of_no_cases (h _ (by decide)), passes_unconditional,
    passes_guardedParts]
  refine ⟨trivial, ?_, ?_, ?_⟩
  · intro sub hsub
    rw [guardedConjuncts, hget _ (by decide)] at hsub
    cases hsub
  · intro fields _ name value _ steps sub hsub
    rw [propertySchema?, hget _ (by decide), hget _ (by decide)] at hsub
    cases hsub
  · intro items _ i item _ sub hsub
    rw [guardedItem?, hget _ (by decide)] at hsub
    cases hsub

/-! ## Acceptance -/

namespace CompiledSchema

theorem accepts_iff (schema : CompiledSchema) (inst : Json) :
    schema.accepts inst = true ↔
      Evaluation.findings schema.root schema.root inst = [] ∧
        (schema.isDiscriminated = true →
          ¬ Faulty schema.root schema.root.references schema.root.references schema.root inst) := by
  rw [accepts, List.isEmpty_iff, violations, List.append_eq_nil_iff, List.map_eq_nil_iff]
  refine and_congr_right fun _ => ?_
  cases schema.isDiscriminated with
  | false => simp
  | true =>
    rw [if_pos rfl, guardViolations, guardWith_eq_nil_iff]
    simp

end CompiledSchema

end ApiContract
