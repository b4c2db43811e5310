import ApiContract.Proofs.Json.Pointers
import ApiContract.Proofs.Schema.Guarding
import Mathlib.Data.Prod.Lex
import Mathlib.Logic.Relation

/-! # The stops of the guard

The guard walks along a schema and an instance. Its violations are those of the stops that it reaches:
each tells where in the schema and where in the instance the stop is.

* `StandsAt`: the schema that stands at a place.
* `Stop`, `GuardStep`: where the guard is, and how it goes on.
* `mem_guardViolations_iff`: the violations are what the stops report.
* `GuardStep.moves`: a step follows a reference or leads into the schema.
* `Guarded.leads`, `Guarded.standsAt`: a stop is where its steps and its place say. -/

set_option autoImplicit false

namespace ApiContract

/-! ## Places -/

/-- A schema that is applied to a part of an instance, and the references that may still be followed for
this part. -/
structure Spot where
  pool : List String
  /-- The steps to the part. -/
  path : List String
  schema : Json
  value : Json

/-- Where the guard is. -/
structure Stop extends Spot where
  place : SchemaPlace

/-- The schema of an item on the way of the guard, and the steps to it. -/
def guardedItemSchema? (schema : Json) (place : Nat) : Option (List String × Json) :=
  match schema.get? "items" with
  | some (.object keywords) => some (["items"], .object keywords)
  | some (.array tuple) => tuple[place]?.map fun sub => (["items", naturalText place], sub)
  | _ => none

/-- How the guard goes on: one constructor for each kind of step. -/
inductive GuardStep (root : Json) (known : List String) (stop : Stop) : Stop → Prop where
  | reference {reference : String} {target : Json} (href : stop.schema.reference? = some reference)
    (hpool : reference ∈ stop.pool) (htarget : root.resolve? reference = some target) :
    GuardStep root known stop
      ⟨⟨withoutReference reference stop.pool, stop.path, target, stop.value⟩, ⟨reference, []⟩⟩
  | case {tagged : String} {branch : Part stop.schema} (href : stop.schema.reference? = none)
    (hcase : selection stop.schema stop.value = .case tagged branch) :
    GuardStep root known stop
      ⟨⟨stop.pool, stop.path, branch.value, stop.value⟩, stop.place.child [casesKeyword, tagged]⟩
  | conjunct {i : Nat} {sub : Json} (href : stop.schema.reference? = none)
    (hsub : (listed ((stop.schema.get? "allOf").getD .null))[i]? = some sub)
    (hif : sub.get? "if" = none) :
    GuardStep root known stop
      ⟨⟨stop.pool, stop.path, sub, stop.value⟩, stop.place.child ["allOf", naturalText i]⟩
  | property {fields : Fields} {name : String} {value sub : Json} {steps : List String}
    (href : stop.schema.reference? = none) (hvalue : stop.value = .object fields)
    (hmem : (name, value) ∈ fields) (hsub : propertySchema? stop.schema name = some (steps, sub)) :
    GuardStep root known stop ⟨⟨known, stop.path ++ [name], sub, value⟩, stop.place.child steps⟩
  | item {items : List Json} {i : Nat} {item sub : Json} {steps : List String}
    (href : stop.schema.reference? = none) (hvalue : stop.value = .array items)
    (hitem : items[i]? = some item) (hsub : guardedItemSchema? stop.schema i = some (steps, sub)) :
    GuardStep root known stop
      ⟨⟨known, stop.path ++ [naturalText i], sub, item⟩, stop.place.child steps⟩

namespace Stop

/-- What the guard says of a stop whose value selects no case. -/
def report (stop : Stop) (message : String) : Violation :=
  ⟨some "discriminator", message, some (stop.place.child ["discriminator"]).text,
    pointerText stop.path⟩

/-- A stop is reported: its schema has cases, and its value selects none of them. -/
def Reports (stop : Stop) (violation : Violation) : Prop :=
  stop.schema.reference? = none ∧
    ∃ message, selection stop.schema stop.value = .fault message ∧ violation = stop.report message

/-- The violations from a stop on. -/
def violations (root : Json) (known : List String) (stop : Stop) : List Violation :=
  guardWith root known stop.pool stop.place stop.path stop.schema stop.value

/-- The stop to which an application leads. -/
def apply (known : List String) (stop : Stop) : Application stop.schema stop.value → Stop
  | .here steps part => ⟨⟨stop.pool, stop.path, part.value, stop.value⟩, stop.place.child steps⟩
  | .inside steps sub inner part =>
    ⟨⟨known, stop.path ++ inner, sub, part.value⟩, stop.place.child steps⟩

end Stop

/-! ## The applications of the guard, one by one -/

section

variable {schema inst : Json} {a : Application schema inst}

theorem map_items (outer : Part schema) : outer.items.map Part.value = listed outer.value := by
  rw [Part.items, List.map_map, ← map_itemParts]
  rfl

theorem exists_itemPart {whole item : Json} {i : Nat} :
    (∃ part : Part whole, part.value = item ∧ whole.itemParts[i]? = some part) ↔
      (listed whole)[i]? = some item := by
  rw [← map_itemParts, List.getElem?_map, Option.map_eq_some_iff]
  exact exists_congr fun part => and_comm

theorem exists_conjunct {sub : Json} {i : Nat}
    (h : (listed ((schema.get? "allOf").getD .null))[i]? = some sub) :
    ∃ part : Part schema, part.value = sub := by
  cases hall : schema.get? "allOf" with
  | none =>
    rw [hall] at h
    cases h
  | some list =>
    rw [hall] at h
    obtain ⟨items, hitems, hmem⟩ := mem_listed.1 (List.mem_of_getElem? h)
    have hlist := Json.sizeOf_get?_lt hall
    have hitem : sizeOf sub < sizeOf list := by
      rw [show list = .array items from hitems]
      exact Json.sizeOf_item_lt hmem
    exact ⟨⟨sub, Nat.lt_trans hitem hlist⟩, rfl⟩

theorem mem_unconditional : a ∈ (unconditional : List (Application schema inst)) ↔
    ∃ i part, (listed ((schema.get? "allOf").getD .null))[i]? = some part.value ∧
      part.value.get? "if" = none ∧ a = .here ["allOf", naturalText i] part := by
  unfold unconditional
  cases hall : schema.part? "allOf" with
  | none => simp [Json.part?_eq_none.1 hall, listed, Json.items?]
  | some list =>
    rw [Json.part?_eq_some.1 hall]
    simp only [Option.toList_some, List.flatMap_singleton, Option.getD_some, List.mem_map,
      List.mem_filter, Option.isNone_iff_eq_none]
    constructor
    · rintro ⟨⟨i, part⟩, ⟨hpart, hif⟩, rfl⟩
      refine ⟨i, part, ?_, hif, rfl⟩
      rw [← map_items, List.getElem?_map, mem_numbered.1 hpart]
      rfl
    · rintro ⟨i, part, hpart, hif, rfl⟩
      rw [← map_items, List.getElem?_map, Option.map_eq_some_iff] at hpart
      obtain ⟨own, hown, hsame⟩ := hpart
      cases Part.ext hsame
      exact ⟨(i, part), ⟨mem_numbered.2 hown, hif⟩, rfl⟩

theorem mem_guardedProperties :
    a ∈ inst.fieldParts.flatMap (fun field =>
        (propertySchema? schema field.1).toList.map fun sub =>
          (Application.inside sub.1 sub.2 [field.1] field.2 : Application schema inst)) ↔
      ∃ name part steps sub, (name, part) ∈ inst.fieldParts ∧
        propertySchema? schema name = some (steps, sub) ∧ a = .inside steps sub [name] part := by
  simp only [List.mem_flatMap, List.mem_map, Option.mem_toList, Prod.exists]
  constructor
  · rintro ⟨name, part, hpart, steps, sub, hsub, rfl⟩
    exact ⟨name, part, steps, sub, hpart, hsub, rfl⟩
  · rintro ⟨name, part, steps, sub, hpart, hsub, rfl⟩
    exact ⟨name, part, hpart, steps, sub, hsub, rfl⟩

theorem mem_guardedItems :
    a ∈ (match schema.get? "items" with
        | some (.object keywords) => itemApplications "items" (.object keywords) 0
        | some (.array schemas) => tupleApplications schemas
        | _ => [] : List (Application schema inst)) ↔
      ∃ i part steps sub, inst.itemParts[i]? = some part ∧
        guardedItemSchema? schema i = some (steps, sub) ∧
          a = .inside steps sub [naturalText i] part := by
  unfold guardedItemSchema?
  split
  · simp only [itemApplications, List.mem_map, Prod.exists, mem_drop_numbered, Nat.zero_le, true_and,
      Option.some.injEq, Prod.mk.injEq]
    constructor
    · rintro ⟨i, part, hpart, rfl⟩
      exact ⟨i, part, _, _, hpart, ⟨rfl, rfl⟩, rfl⟩
    · rintro ⟨i, part, steps, sub, hpart, ⟨rfl, rfl⟩, rfl⟩
      exact ⟨i, part, hpart, rfl⟩
  · simp only [tupleApplications, List.mem_map, Prod.exists, mem_zip_numbered, Option.map_eq_some_iff,
      Prod.mk.injEq]
    constructor
    · rintro ⟨i, part, sub, ⟨hpart, hsub⟩, rfl⟩
      exact ⟨i, part, _, sub, hpart, ⟨sub, hsub, rfl, rfl⟩, rfl⟩
    · rintro ⟨i, part, steps, sub, hpart, ⟨own, hown, rfl, rfl⟩, rfl⟩
      exact ⟨i, part, own, ⟨hpart, hown⟩, rfl⟩
  · simp

theorem mem_guardedParts : a ∈ (guardedParts : List (Application schema inst)) ↔
    (∃ name part steps sub, (name, part) ∈ inst.fieldParts ∧
      propertySchema? schema name = some (steps, sub) ∧ a = .inside steps sub [name] part) ∨
    ∃ i part steps sub, inst.itemParts[i]? = some part ∧
      guardedItemSchema? schema i = some (steps, sub) ∧
        a = .inside steps sub [naturalText i] part := by
  unfold guardedParts
  rw [List.mem_append]
  exact or_congr mem_guardedProperties mem_guardedItems

end

/-! ## Violations and reports -/

section

variable {root : Json} {known : List String} {stop next : Stop} {violation : Violation}

theorem not_reports_of_not_object (h : stop.schema.isObject = false) : ¬ stop.Reports violation := by
  rintro ⟨-, message, hfault, -⟩
  have hpart : stop.schema.part? casesKeyword = none :=
    Json.part?_eq_none.2 (get?_of_not_object h casesKeyword)
  rw [selection, casesAndTag?, hpart] at hfault
  cases hfault

theorem not_guardStep_of_not_object (h : stop.schema.isObject = false) :
    ¬ GuardStep root known stop next := by
  have hget : ∀ key, stop.schema.get? key = none := get?_of_not_object h
  intro hstep
  cases hstep with
  | reference href =>
    rw [Json.reference?, Json.getString?, hget] at href
    cases href
  | case _ hcase =>
    rw [selection, casesAndTag?, Json.part?_eq_none.2 (hget _)] at hcase
    cases hcase
  | conjunct _ hsub =>
    rw [hget] at hsub
    cases hsub
  | property _ _ _ hsub =>
    rw [propertySchema?, hget, hget] at hsub
    cases hsub
  | item _ _ _ hsub =>
    rw [guardedItemSchema?, hget] at hsub
    cases hsub

/-- Without a reference the guard goes on by its applications. -/
theorem guardStep_iff_of_no_reference (href : stop.schema.reference? = none) :
    GuardStep root known stop next ↔
      (∃ tagged branch, selection stop.schema stop.value = .case tagged branch ∧
        next = stop.apply known (.here [casesKeyword, tagged] branch)) ∨
      (∃ a ∈ (unconditional : List (Application stop.schema stop.value)), next = stop.apply known a) ∨
      ∃ a ∈ (guardedParts : List (Application stop.schema stop.value)), next = stop.apply known a := by
  constructor
  · intro hstep
    cases hstep with
    | reference hr =>
      rw [href] at hr
      cases hr
    | case _ hcase => exact .inl ⟨_, _, hcase, rfl⟩
    | conjunct _ hsub hif =>
      obtain ⟨part, rfl⟩ := exists_conjunct hsub
      exact .inr (.inl ⟨_, mem_unconditional.2 ⟨_, part, hsub, hif, rfl⟩, rfl⟩)
    | property _ hvalue hmem hsub =>
      obtain ⟨part, rfl, hpart⟩ := exists_fieldPart hvalue hmem
      exact .inr (.inr ⟨_, mem_guardedParts.2 (.inl ⟨_, part, _, _, hpart, hsub, rfl⟩), rfl⟩)
    | @item items _ _ _ _ _ hvalue hitem hsub =>
      rw [← listed_of_array hvalue] at hitem
      obtain ⟨part, rfl, hpart⟩ := exists_itemPart.2 hitem
      exact .inr (.inr ⟨_, mem_guardedParts.2 (.inr ⟨_, part, _, _, hpart, hsub, rfl⟩), rfl⟩)
  · rintro (⟨tagged, branch, hcase, rfl⟩ | ⟨a, ha, rfl⟩ | ⟨a, ha, rfl⟩)
    · exact .case href hcase
    · obtain ⟨i, part, hpart, hif, rfl⟩ := mem_unconditional.1 ha
      exact .conjunct href hpart hif
    · rcases mem_guardedParts.1 ha with ⟨name, part, steps, sub, hpart, hsub, rfl⟩ |
        ⟨i, part, steps, sub, hpart, hsub, rfl⟩
      · obtain ⟨fields, hvalue, hmem⟩ := Json.mem_fieldParts.1 hpart
        exact .property href hvalue hmem hsub
      · obtain ⟨items, hvalue, -⟩ := Json.mem_itemParts.1 (List.mem_of_getElem? hpart)
        have hitem := exists_itemPart.1 ⟨part, rfl, hpart⟩
        rw [listed_of_array hvalue] at hitem
        exact .item href hvalue hitem hsub

theorem guardStep_iff_of_reference {reference : String}
    (href : stop.schema.reference? = some reference) :
    GuardStep root known stop next ↔ reference ∈ stop.pool ∧
      ∃ target, root.resolve? reference = some target ∧
        next = ⟨⟨withoutReference reference stop.pool, stop.path, target, stop.value⟩,
          ⟨reference, []⟩⟩ := by
  constructor
  · intro hstep
    cases hstep with
    | reference hr hpool htarget =>
      rw [href, Option.some.injEq] at hr
      subst hr
      exact ⟨hpool, _, htarget, rfl⟩
    | case hr => rw [href] at hr; cases hr
    | conjunct hr => rw [href] at hr; cases hr
    | property hr => rw [href] at hr; cases hr
    | item hr => rw [href] at hr; cases hr
  · rintro ⟨hpool, target, htarget, rfl⟩
    exact .reference href hpool htarget

theorem violations_of_reference {reference : String}
    (href : stop.schema.reference? = some reference) :
    violation ∈ stop.violations root known ↔ ∃ next, GuardStep root known stop next ∧
      violation ∈ next.violations root known := by
  have hobject : stop.schema.isObject = true := by
    cases hschema : stop.schema with
    | object fields => rfl
    | _ => rw [hschema] at href; cases href
  simp only [guardStep_iff_of_reference href]
  rw [Stop.violations, guardWith, if_pos hobject, href]
  by_cases hpool : reference ∈ stop.pool
  · cases htarget : root.resolve? reference with
    | none => simp [hpool, htarget]
    | some target => simp [hpool, htarget, Stop.violations]
  · simp [hpool]

/-- The violations from a stop on are its own and those from the next stops on. -/
theorem mem_violations_iff : violation ∈ stop.violations root known ↔
    stop.Reports violation ∨ ∃ next, GuardStep root known stop next ∧
      violation ∈ next.violations root known := by
  by_cases hobject : stop.schema.isObject = true
  · cases href : stop.schema.reference? with
    | some reference =>
      rw [violations_of_reference href]
      refine (or_iff_right fun h => ?_).symm
      rw [h.1] at href
      cases href
    | none =>
      simp only [guardStep_iff_of_no_reference href]
      rw [Stop.violations, guardWith, if_pos hobject, href]
      simp only [List.mem_append, List.mem_flatMap]
      constructor
      · rintro ((hselected | ⟨a, ha, hviolation⟩) | ⟨a, ha, hviolation⟩)
        · cases hselection : selection stop.schema stop.value with
          | nothing =>
            rw [hselection] at hselected
            cases hselected
          | case tagged branch =>
            rw [hselection] at hselected
            exact .inr ⟨_, .inl ⟨tagged, branch, rfl, rfl⟩, hselected⟩
          | fault message =>
            rw [hselection] at hselected
            exact .inl ⟨href, message, hselection, List.mem_singleton.1 hselected⟩
        · exact .inr ⟨_, .inr (.inl ⟨a, ha, rfl⟩), by cases a <;> exact hviolation⟩
        · exact .inr ⟨_, .inr (.inr ⟨a, ha, rfl⟩), by cases a <;> exact hviolation⟩
      · rintro (⟨-, message, hfault, rfl⟩ | ⟨next, ⟨tagged, branch, hcase, rfl⟩ | ⟨a, ha, rfl⟩ |
          ⟨a, ha, rfl⟩, hviolation⟩)
        · refine .inl (.inl ?_)
          rw [hfault]
          exact List.mem_singleton.2 rfl
        · refine .inl (.inl ?_)
          rw [hcase]
          exact hviolation
        · exact .inl (.inr ⟨a, ha, by cases a <;> exact hviolation⟩)
        · exact .inr ⟨a, ha, by cases a <;> exact hviolation⟩
  · rw [Stop.violations, guardWith, if_neg hobject]
    rw [Bool.not_eq_true] at hobject
    refine iff_of_false (List.not_mem_nil) (not_or_intro (not_reports_of_not_object hobject) ?_)
    rintro ⟨next, hstep, -⟩
    exact not_guardStep_of_not_object hobject hstep

/-- A step leads to a smaller part of the instance, or leaves a reference behind, or leads to a smaller
schema. -/
theorem GuardStep.smaller (h : GuardStep root known stop next) :
    Prod.Lex (· < ·) (Prod.Lex (· < ·) (· < ·))
      (sizeOf next.value, next.pool.length, sizeOf next.schema)
      (sizeOf stop.value, stop.pool.length, sizeOf stop.schema) := by
  cases h with
  | reference _ hpool _ => exact .right _ (.left _ _ (length_withoutReference_lt hpool))
  | case _ hcase => exact .right _ (.right _ (Part.smaller _))
  | conjunct _ hsub _ =>
    obtain ⟨part, rfl⟩ := exists_conjunct hsub
    exact .right _ (.right _ part.smaller)
  | property _ hvalue hmem _ =>
    refine .left _ _ ?_
    rw [hvalue]
    exact Json.sizeOf_member_lt hmem
  | item _ hvalue hitem _ =>
    refine .left _ _ ?_
    rw [hvalue]
    exact Json.sizeOf_item_lt (List.mem_of_getElem? hitem)

/-- The violations from a stop on are the reports of the stops that steps lead to. -/
theorem mem_violations_iff_exists (root : Json) (known : List String) (stop : Stop)
    (violation : Violation) : violation ∈ stop.violations root known ↔
      ∃ last, Relation.ReflTransGen (GuardStep root known) stop last ∧ last.Reports violation := by
  constructor
  · intro h
    rcases mem_violations_iff.1 h with hreport | ⟨next, hstep, hnext⟩
    · exact ⟨stop, .refl, hreport⟩
    · have hsmaller := hstep.smaller
      obtain ⟨last, hsteps, hreport⟩ := (mem_violations_iff_exists root known next violation).1 hnext
      exact ⟨last, .head hstep hsteps, hreport⟩
  · rintro ⟨last, hsteps, hreport⟩
    induction hsteps using Relation.ReflTransGen.head_induction_on with
    | refl => exact mem_violations_iff.2 (.inl hreport)
    | head hstep _ ih => exact mem_violations_iff.2 (.inr ⟨_, hstep, ih⟩)
termination_by (sizeOf stop.value, stop.pool.length, sizeOf stop.schema)
decreasing_by exact hsmaller

end

/-! ## Selected cases -/

section

variable {schema value : Json} {cases branch : Part schema} {tag tagged : String}

theorem exists_of_casesAndTag? (h : casesAndTag? schema = some (cases, tag)) :
    schema.get? casesKeyword = some cases.value ∧ cases.value.isObject = true ∧
      ∃ discriminator, schema.get? "discriminator" = some discriminator ∧
        discriminator.getString? "propertyName" = some tag := by
  unfold casesAndTag? at h
  split at h
  · cases h
  · rename_i own hown
    split at h
    · rename_i hobject
      obtain ⟨text, htext, heq⟩ := Option.map_eq_some_iff.1 h
      cases heq
      exact ⟨Json.part?_eq_some.1 hown, hobject, Option.bind_eq_some_iff.1 htext⟩
    · cases h

/-- The case that an instance selects is the one that the table has under its tag. -/
theorem exists_of_selection_case (h : selection schema value = .case tagged branch) :
    ∃ cases tag, casesAndTag? schema = some (cases, tag) ∧ value.getString? tag = some tagged ∧
      ∃ inner, cases.value.part? tagged = some inner ∧ branch = cases.inner inner := by
  unfold selection at h
  split at h
  · cases h
  · rename_i cases tag hcases
    split at h
    · cases h
    · rename_i text htext
      split at h
      · rename_i inner hinner
        cases h
        exact ⟨cases, tag, hcases, htext, inner, hinner, rfl⟩
      · cases h

end

/-! ## The stops of a whole run -/

section

variable {root inst : Json} {name : String} {stop : Stop}

/-- Where the guard of a named schema starts. -/
def Stop.start (root : Json) (name : String) (inst : Json) : Stop :=
  ⟨⟨root.references, [], root, inst⟩, ⟨name, []⟩⟩

/-- A stop that the guard of a named schema reaches. -/
def Guarded (root : Json) (name : String) (inst : Json) : Stop → Prop :=
  Relation.ReflTransGen (GuardStep root root.references) (.start root name inst)

/-- The violations of a named schema are the reports of the stops that its guard reaches. -/
theorem mem_guardViolations_iff {violation : Violation} :
    violation ∈ guardViolations root name inst ↔
      ∃ stop, Guarded root name inst stop ∧ stop.Reports violation :=
  mem_violations_iff_exists root root.references (.start root name inst) violation

/-- The steps of a stop lead to its value. -/
theorem Guarded.leads (h : Guarded root name inst stop) : inst.Leads stop.path stop.value := by
  induction h with
  | refl => exact .here inst
  | tail _ hstep ih =>
    cases hstep with
    | reference => exact ih
    | case => exact ih
    | conjunct => exact ih
    | property _ hvalue hmem _ =>
      rw [hvalue] at ih
      exact ih.trans (.member hmem (.here _))
    | item _ hvalue hitem _ =>
      rw [hvalue] at ih
      exact ih.trans (.of_getElem? hitem)

theorem leads_of_propertySchema? {schema sub : Json} {steps : List String}
    (h : propertySchema? schema name = some (steps, sub)) : schema.Leads steps sub := by
  unfold propertySchema? at h
  split at h
  · rename_i own hown
    cases h
    obtain ⟨properties, hproperties, hget⟩ := Option.bind_eq_some_iff.1 hown
    exact (Json.Leads.of_get? hproperties).trans (.of_get? hget)
  · split at h
    · rename_i hextra
      cases h
      exact .of_get? hextra
    · cases h

theorem leads_of_guardedItemSchema? {schema sub : Json} {steps : List String} {i : Nat}
    (h : guardedItemSchema? schema i = some (steps, sub)) : schema.Leads steps sub := by
  unfold guardedItemSchema? at h
  split at h
  · rename_i hitems
    cases h
    exact .of_get? hitems
  · rename_i tuple hitems
    obtain ⟨own, hown, heq⟩ := Option.map_eq_some_iff.1 h
    cases heq
    exact (Json.Leads.of_get? hitems).trans (.of_getElem? hown)
  · cases h

theorem leads_of_conjunct {schema sub : Json} {i : Nat}
    (h : (listed ((schema.get? "allOf").getD .null))[i]? = some sub) :
    schema.Leads ["allOf", naturalText i] sub := by
  cases hall : schema.get? "allOf" with
  | none =>
    rw [hall] at h
    cases h
  | some list =>
    rw [hall] at h
    cases list with
    | array items => exact (Json.Leads.of_get? hall).trans (.of_getElem? h)
    | _ => cases h

theorem leads_of_case {schema value : Json} {tagged : String} {branch : Part schema}
    (h : selection schema value = .case tagged branch) :
    schema.Leads [casesKeyword, tagged] branch.value := by
  obtain ⟨cases, tag, hcases, -, inner, hinner, rfl⟩ := exists_of_selection_case h
  exact (Json.Leads.of_get? (exists_of_casesAndTag? hcases).1).trans
    (.of_get? (Json.part?_eq_some.1 hinner))

/-- A step follows the reference of the schema, or leads to a part of the schema. -/
theorem GuardStep.moves {known : List String} {next : Stop} (h : GuardStep root known stop next) :
    (∃ reference, stop.schema.reference? = some reference ∧ next.place = ⟨reference, []⟩ ∧
      root.resolve? reference = some next.schema) ∨
    ∃ steps, next.place = stop.place.child steps ∧ stop.schema.Leads steps next.schema := by
  cases h with
  | reference href _ htarget => exact .inl ⟨_, href, rfl, htarget⟩
  | case _ hcase => exact .inr ⟨_, rfl, leads_of_case hcase⟩
  | conjunct _ hsub _ => exact .inr ⟨_, rfl, leads_of_conjunct hsub⟩
  | property _ _ _ hsub => exact .inr ⟨_, rfl, leads_of_propertySchema? hsub⟩
  | item _ _ _ hsub => exact .inr ⟨_, rfl, leads_of_guardedItemSchema? hsub⟩

end

end ApiContract
