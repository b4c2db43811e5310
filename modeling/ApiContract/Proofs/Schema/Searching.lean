import ApiContract.Proofs.Schema.Guarding
import ApiContract.Proofs.Schema.Unselected

/-! # What the search overlooks

The guard is left out where a search of the schema finds no cases. The search passes over data by the
names of keys, and the guard does not: a property that is named like a data keyword is on the way of the
guard only.

* `Visible`: the parts of a value that the search comes to before it follows references.
* `settled_of_searchCases`: what is known once a search has ended without a result.
* `Overlooked`: the guard meets a fault behind a property that the search passes over.
* `guardViolations_eq_nil_iff`: nothing else is left out with the guard.
* `defaultProperty_overlooked`: a fault that is. -/

set_option autoImplicit false

namespace ApiContract

/-! ## What a search has seen -/

/-- The parts of a value that the search comes to before it follows references. -/
inductive Visible : Json → Json → Prop where
  | self (value : Json) : Visible value value
  | field {fields : Fields} {key : String} {value part : Json}
    (href : (Json.object fields).reference? = none) (hmem : (key, value) ∈ fields)
    (hkey : isDataKeyword key = false) (h : Visible value part) : Visible (.object fields) part
  | item {items : List Json} {value part : Json} (hmem : value ∈ items) (h : Visible value part) :
    Visible (.array items) part

theorem Visible.trans {value middle part : Json} (h : Visible value middle)
    (hpart : Visible middle part) : Visible value part := by
  induction h with
  | self value => exact hpart
  | field href hmem hkey _ ih => exact .field href hmem hkey (ih hpart)
  | item hmem _ ih => exact .item hmem (ih hpart)

/-- No part of a value has cases, and the references in it are none of those that are left. -/
def Settled (left : List String) (value : Json) : Prop :=
  ∀ part, Visible value part → part.get? casesKeyword = none ∧
    ∀ reference, part.reference? = some reference → reference ∉ left

/-- A search has gone from some references to those that are left, and the others lead to nothing
that it would find. -/
structure Searched (root : Json) (pool left : List String) : Prop where
  subset : left ⊆ pool
  settled : ∀ reference ∈ pool, reference ∉ left →
    ∀ target, root.resolve? reference = some target → Settled left target

section

variable {root value : Json} {pool left less : List String}

theorem Settled.mono (h : Settled left value) (hless : less ⊆ left) : Settled less value :=
  fun part hpart => ⟨(h part hpart).1, fun reference href hmem =>
    (h part hpart).2 reference href (hless hmem)⟩

theorem Settled.of_visible {part : Json} (h : Settled left value) (hpart : Visible value part) :
    Settled left part :=
  fun inner hinner => h inner (hpart.trans hinner)

theorem Searched.refl (root : Json) (pool : List String) : Searched root pool pool where
  subset := List.Subset.refl pool
  settled _ hmem hnot := absurd hmem hnot

theorem Searched.trans (hfirst : Searched root pool left) (hnext : Searched root left less) :
    Searched root pool less where
  subset := List.Subset.trans hnext.subset hfirst.subset
  settled reference hmem hnot target htarget := by
    by_cases hleft : reference ∈ left
    · exact hnext.settled reference hleft hnot target htarget
    · exact (hfirst.settled reference hmem hleft target htarget).mono hnext.subset

/-- A reference that is taken out is searched once its target is settled. -/
theorem Searched.of_target {reference : String}
    (h : Searched root (withoutReference reference pool) left)
    (htarget : ∀ target, root.resolve? reference = some target → Settled left target) :
    Searched root pool left where
  subset := fun _ hmem => (List.mem_filter.1 (h.subset hmem)).1
  settled other hmem hnot target hother := by
    by_cases heq : other = reference
    · subst heq
      exact htarget target hother
    · have hrest : other ∈ withoutReference reference pool :=
        List.mem_filter.2 ⟨hmem, decide_eq_true heq⟩
      exact h.settled other hrest hnot target hother

theorem not_mem_of_withoutReference {reference : String}
    (h : left ⊆ withoutReference reference pool) : reference ∉ left := by
  intro hmem
  have hne := (List.mem_filter.1 (h hmem)).2
  exact of_decide_eq_true hne rfl

/-! ## The search -/

/-- A search of one thing after the other, some of which are passed over. -/
theorem searched_of_foldlM {α : Type} {limit : Nat}
    {step : Unvisited limit → α → Option (Unvisited limit)} (entered : α → Prop) (held : α → Json)
    (hstep : ∀ left a next, step left a = some next →
      Searched root left.1 next.1 ∧ (entered a → Settled next.1 (held a)))
    {items : List α} {start last : Unvisited limit} (h : items.foldlM step start = some last) :
    Searched root start.1 last.1 ∧ ∀ a ∈ items, entered a → Settled last.1 (held a) := by
  induction items generalizing start with
  | nil =>
    rw [List.foldlM_nil, Option.pure_def, Option.some.injEq] at h
    subst h
    exact ⟨.refl root _, by simp⟩
  | cons a rest ih =>
    rw [List.foldlM_cons, Option.bind_eq_bind, Option.bind_eq_some_iff] at h
    obtain ⟨next, hnext, hlast⟩ := h
    obtain ⟨hfirst, ha⟩ := hstep start a next hnext
    obtain ⟨hrest, hall⟩ := ih hlast
    refine ⟨hfirst.trans hrest, fun b hb => ?_⟩
    rcases List.mem_cons.1 hb with rfl | hb
    · exact fun hentered => (ha hentered).mono hrest.subset
    · exact hall b hb

/-- The fields that are no data are settled. -/
def FieldsSettled (left : List String) (fields : Fields) : Prop :=
  ∀ key value, (key, value) ∈ fields → isDataKeyword key = false → Settled left value

theorem settled_of_fields {fields : Fields} (hcases : fields.hasKey casesKeyword ≠ true)
    (href : (Json.object fields).reference? = none) (h : FieldsSettled left fields) :
    Settled left (.object fields) := by
  intro part hpart
  cases hpart with
  | self =>
    refine ⟨?_, fun reference hreference => ?_⟩
    · exact Fields.hasKey_eq_false_iff.1 (by simpa using hcases)
    · rw [href] at hreference
      cases hreference
  | field _ hmem hkey hinner => exact h _ _ hmem hkey part hinner

theorem settled_of_reference {fields : Fields} {reference : String}
    (hcases : fields.hasKey casesKeyword ≠ true)
    (href : (Json.object fields).reference? = some reference) (hnot : reference ∉ left) :
    Settled left (.object fields) := by
  intro part hpart
  cases hpart with
  | self =>
    refine ⟨?_, fun other hother => ?_⟩
    · exact Fields.hasKey_eq_false_iff.1 (by simpa using hcases)
    · rw [href, Option.some.injEq] at hother
      exact hother ▸ hnot
  | field hnone => rw [href] at hnone; cases hnone

theorem settled_of_items {items : List Json} (h : ∀ item ∈ items, Settled left item) :
    Settled left (.array items) := by
  intro part hpart
  cases hpart with
  | self => exact ⟨rfl, nofun⟩
  | item hmem hinner => exact h _ hmem part hinner

end

section

variable {root : Json}

/-- The search goes through the fields of an object one by one. -/
theorem searched_fields {fields : Fields} {limit : Nat}
    (ih : ∀ (left : Unvisited limit) (entry : String × Part (.object fields)) next,
      searchCases root left.1 entry.2.value = some next →
        Searched root left.1 next.1 ∧ Settled next.1 entry.2.value)
    {start last : Unvisited limit}
    (h : (Json.fieldParts (.object fields)).foldlM (fun (left : Unvisited limit) entry =>
      if isDataKeyword entry.1 then some left
      else
        (searchCases root left.1 entry.2.value).map fun next =>
          (⟨next.1, Nat.le_trans next.2 left.2⟩ : Unvisited limit)) start = some last) :
    Searched root start.1 last.1 ∧ FieldsSettled last.1 fields := by
  obtain ⟨hsearched, hall⟩ := searched_of_foldlM (fun entry => isDataKeyword entry.1 = false)
    (fun entry => entry.2.value) (fun left entry next hnext => by
      by_cases hkey : isDataKeyword entry.1 = true
      · rw [if_pos hkey, Option.some.injEq] at hnext
        subst hnext
        exact ⟨.refl root _, fun hnot => by rw [hkey] at hnot; cases hnot⟩
      · rw [if_neg hkey, Option.map_eq_some_iff] at hnext
        obtain ⟨found, hfound, rfl⟩ := hnext
        obtain ⟨hone, hsettled⟩ := ih left entry found hfound
        exact ⟨hone, fun _ => hsettled⟩) h
  refine ⟨hsearched, fun key value hmem hkey => ?_⟩
  obtain ⟨part, rfl, hpart⟩ := exists_fieldPart rfl hmem
  exact hall (key, part) hpart hkey

/-- Where a search ends without a result, it has seen no cases and followed all references it met. -/
theorem settled_of_searchCases (pool : List String) (value : Json) (left : Unvisited pool.length)
    (h : searchCases root pool value = some left) :
    Searched root pool left.1 ∧ Settled left.1 value := by
  induction pool, value using searchCases.induct root with
  | case1 pool fields hcases =>
    rw [searchCases, if_pos hcases] at h
    cases h
  | case2 pool fields hcases href ih =>
    rw [searchCases, if_neg hcases, href] at h
    obtain ⟨hsearched, hfields⟩ := searched_fields (fun left entry => ih left entry) h
    exact ⟨hsearched, settled_of_fields hcases href hfields⟩
  | case3 pool fields hcases reference href hpool hshorter hnone ih =>
    rw [searchCases, if_neg hcases, href] at h
    simp only [hpool, dite_true, hnone] at h
    obtain ⟨hsearched, -⟩ := searched_fields (fun left entry => ih left entry) h
    have hnot := not_mem_of_withoutReference hsearched.subset
    refine ⟨hsearched.of_target fun target htarget => ?_, settled_of_reference hcases href hnot⟩
    rw [hnone] at htarget
    cases htarget
  | case4 pool fields hcases reference href hpool hshorter target htarget ih ihtarget =>
    rw [searchCases, if_neg hcases, href] at h
    simp only [hpool, dite_true, htarget, Option.bind_eq_some_iff] at h
    obtain ⟨middle, hmiddle, hlast⟩ := h
    obtain ⟨hfirst, hsettled⟩ := ihtarget middle hmiddle
    obtain ⟨hnext, -⟩ := searched_fields (fun left entry => ih left entry) hlast
    have hsearched := hfirst.trans hnext
    have hnot := not_mem_of_withoutReference hsearched.subset
    refine ⟨hsearched.of_target fun other hother => ?_, settled_of_reference hcases href hnot⟩
    rw [htarget, Option.some.injEq] at hother
    exact hother ▸ hsettled.mono hnext.subset
  | case5 pool fields hcases reference href hpool =>
    rw [searchCases, if_neg hcases, href] at h
    simp only [hpool, dite_false, Option.some.injEq] at h
    subst h
    exact ⟨.refl root pool, settled_of_reference hcases href hpool⟩
  | case6 pool items ih =>
    rw [searchCases] at h
    obtain ⟨hsearched, hall⟩ := searched_of_foldlM (fun _ => True) (fun part => part.value)
      (fun left part next hnext => by
        obtain ⟨found, hfound, rfl⟩ := Option.map_eq_some_iff.1 hnext
        obtain ⟨hone, hsettled⟩ := ih left part found hfound
        exact ⟨hone, fun _ => hsettled⟩) h
    refine ⟨hsearched, settled_of_items fun item hitem => ?_⟩
    obtain ⟨part, rfl, hpart⟩ : ∃ part : Part (.array items), part.value = item ∧
        part ∈ Json.itemParts (.array items) :=
      ⟨⟨item, Json.sizeOf_item_lt hitem⟩, rfl, Json.mem_itemParts.2 ⟨items, rfl, hitem⟩⟩
    exact hall part hpart trivial
  | case7 pool value hobject harray =>
    have hend : searchCases root pool value = some ⟨pool, Nat.le_refl _⟩ := by
      cases value with
      | object fields => exact absurd rfl (hobject fields)
      | array items => exact absurd rfl (harray items)
      | _ => rw [searchCases] <;> simp
    rw [hend, Option.some.injEq] at h
    subst h
    refine ⟨.refl root pool, fun part hpart => ?_⟩
    cases hpart with
    | self =>
      cases value with
      | object fields => exact absurd rfl (hobject fields)
      | _ => exact ⟨rfl, nofun⟩
    | field => exact absurd rfl (hobject _)
    | item => exact absurd rfl (harray _)

end

/-! ## The way of the guard -/

/-- The search passes over a property: its name is that of a data keyword, or there is a reference
among the properties. -/
def PassedOver (properties : Json) (name : String) : Prop :=
  isDataKeyword name = true ∨ properties.reference?.isSome = true

/-- The guard meets a fault behind a declared property that the search passes over. -/
inductive Overlooked (root : Json) (known : List String) : List String → Json → Json → Prop where
  | hidden {pool : List String} {schema properties sub value : Json} {fields : Fields} {name : String}
    (href : schema.reference? = none) (hproperties : schema.get? "properties" = some properties)
    (hsub : properties.get? name = some sub) (hname : PassedOver properties name)
    (hmem : (name, value) ∈ fields) (h : Faulty root known known sub value) :
    Overlooked root known pool schema (.object fields)
  | reference {pool : List String} {schema target inst : Json} {reference : String}
    (href : schema.reference? = some reference) (hpool : reference ∈ pool)
    (htarget : root.resolve? reference = some target)
    (h : Overlooked root known (withoutReference reference pool) target inst) :
    Overlooked root known pool schema inst
  | conjunct {pool : List String} {schema sub inst : Json}
    (href : schema.reference? = none) (hsub : sub ∈ guardedConjuncts schema)
    (h : Overlooked root known pool sub inst) :
    Overlooked root known pool schema inst
  | property {pool steps : List String} {schema sub value : Json} {fields : Fields} {name : String}
    (href : schema.reference? = none) (hmem : (name, value) ∈ fields)
    (hsub : propertySchema? schema name = some (steps, sub))
    (h : Overlooked root known known sub value) :
    Overlooked root known pool schema (.object fields)
  | item {pool : List String} {schema sub item : Json} {items : List Json} {i : Nat}
    (href : schema.reference? = none) (hitem : items[i]? = some item)
    (hsub : guardedItem? schema i = some sub)
    (h : Overlooked root known known sub item) :
    Overlooked root known pool schema (.array items)

section

variable {root schema inst : Json} {known pool left : List String}

theorem propertySchema?_of_declared {properties sub : Json} {name : String}
    (hproperties : schema.get? "properties" = some properties)
    (hsub : properties.get? name = some sub) :
    propertySchema? schema name = some (["properties", name], sub) := by
  rw [propertySchema?, hproperties, Option.bind_some, hsub]

theorem Overlooked.faulty (h : Overlooked root known pool schema inst) :
    Faulty root known pool schema inst := by
  induction h with
  | hidden href hproperties hsub _ hmem hfaulty =>
    exact .property href hmem (propertySchema?_of_declared hproperties hsub) hfaulty
  | reference href hpool htarget _ ih => exact .reference href hpool htarget ih
  | conjunct href hsub _ ih => exact .conjunct href hsub ih
  | property href hmem hsub _ ih => exact .property href hmem hsub ih
  | item href hitem hsub _ ih => exact .item href hitem hsub ih

/-- What the search has been through: all parts of a value, or the root beside its components. -/
def Entered (root : Json) (left : List String) (schema : Json) : Prop :=
  schema = root ∨ Settled left schema

theorem get?_withoutComponents {key : String} (hkey : key ≠ "components") :
    (withoutComponents root).get? key = root.get? key := by
  cases root with
  | object fields =>
    show Fields.get? key (Fields.erase "components" fields) = Fields.get? key fields
    rw [Fields.get?_erase, if_neg (Ne.symm hkey)]
  | _ => rfl

theorem reference?_withoutComponents : (withoutComponents root).reference? = root.reference? := by
  rw [Json.reference?, Json.getString?, get?_withoutComponents (by decide)]
  rfl

theorem Settled.get? {key : String} {part : Json} (h : Settled left schema)
    (href : schema.reference? = none) (hpart : schema.get? key = some part)
    (hkey : isDataKeyword key = false) : Settled left part := by
  cases schema with
  | object fields =>
    exact h.of_visible (.field href (Fields.mem_of_get? hpart) hkey (.self part))
  | _ => cases hpart

theorem Settled.item {items : List Json} {item : Json} (h : Settled left (.array items))
    (hitem : item ∈ items) : Settled left item :=
  h.of_visible (.item hitem (.self item))

theorem Entered.get? (hroot : Settled left (withoutComponents root)) (h : Entered root left schema)
    (href : schema.reference? = none) {key : String} {part : Json}
    (hpart : schema.get? key = some part) (hkey : isDataKeyword key = false)
    (hne : key ≠ "components") : Settled left part := by
  rcases h with rfl | h
  · refine hroot.get? ?_ ?_ hkey
    · rw [reference?_withoutComponents, href]
    · rw [get?_withoutComponents hne, hpart]
  · exact h.get? href hpart hkey

theorem Entered.not_cases (hroot : Settled left (withoutComponents root))
    (h : Entered root left schema) : schema.get? casesKeyword = none := by
  rcases h with rfl | h
  · rw [← get?_withoutComponents (by decide)]
    exact (hroot _ (.self _)).1
  · exact (h _ (.self _)).1

theorem Entered.not_left (hroot : Settled left (withoutComponents root))
    (h : Entered root left schema) {reference : String} (href : schema.reference? = some reference) :
    reference ∉ left := by
  rcases h with rfl | h
  · rw [← reference?_withoutComponents] at href
    exact (hroot _ (.self _)).2 reference href
  · exact (h _ (.self _)).2 reference href

theorem selection_of_not_cases (h : schema.get? casesKeyword = none) :
    selection schema inst = .nothing := by
  have hpart : schema.part? casesKeyword = none := Json.part?_eq_none.2 h
  rw [selection, casesAndTag?, hpart]

/-- Behind what the search has been through, the guard meets only faults that the search overlooks. -/
theorem overlooked_of_faulty (hsearched : Searched root root.references left)
    (hroot : Settled left (withoutComponents root))
    (h : Faulty root root.references pool schema inst) (hpool : pool ⊆ root.references)
    (hentered : Entered root left schema) : Overlooked root root.references pool schema inst := by
  induction h with
  | reference href hmem htarget _ ih =>
    have hsettled := hsearched.settled _ (hpool hmem) (hentered.not_left hroot href) _ htarget
    exact .reference href hmem htarget
      (ih (fun _ hother => hpool (List.mem_filter.1 hother).1) (.inr hsettled))
  | unselected href hfault =>
    rw [selection_of_not_cases (hentered.not_cases hroot)] at hfault
    cases hfault
  | case href hcase =>
    rw [selection_of_not_cases (hentered.not_cases hroot)] at hcase
    cases hcase
  | @conjunct pool schema sub inst href hsub _ ih =>
    refine .conjunct href hsub (ih hpool (.inr ?_))
    have hlisted : sub ∈ listed ((schema.get? "allOf").getD .null) := (List.mem_filter.1 hsub).1
    cases hall : schema.get? "allOf" with
    | none => rw [hall] at hlisted; cases hlisted
    | some value =>
      rw [hall, Option.getD_some] at hlisted
      have hvalue := hentered.get? hroot href hall (by decide) (by decide)
      cases value with
      | array items => exact hvalue.item hlisted
      | _ => cases hlisted
  | @property pool steps schema sub value fields name href hmem hsub hfault ih =>
    cases hdeclared : (schema.get? "properties").bind (·.get? name) with
    | some given =>
      obtain ⟨properties, hproperties, hgiven⟩ := Option.bind_eq_some_iff.1 hdeclared
      have hgiven' := propertySchema?_of_declared hproperties hgiven
      rw [hsub, Option.some.injEq, Prod.mk.injEq] at hgiven'
      obtain ⟨-, rfl⟩ := hgiven'
      by_cases hname : PassedOver properties name
      · exact .hidden href hproperties hgiven hname hmem hfault
      · obtain ⟨hkey, hnone⟩ := not_or.1 hname
        have hvalue := hentered.get? hroot href hproperties (by decide) (by decide)
        have hopen := hvalue.get? (by simpa using hnone) hgiven (by simpa using hkey)
        exact .property href hmem hsub (ih (List.Subset.refl _) (.inr hopen))
    | none =>
      refine .property href hmem hsub (ih (List.Subset.refl _) (.inr ?_))
      rw [propertySchema?, hdeclared] at hsub
      cases hfurther : schema.get? "additionalProperties" with
      | none => rw [hfurther] at hsub; cases hsub
      | some given =>
        rw [hfurther] at hsub
        have hvalue := hentered.get? hroot href hfurther (by decide) (by decide)
        cases given with
        | object keywords => cases hsub; exact hvalue
        | _ => cases hsub
  | @item pool schema sub item items i href hitem hsub _ ih =>
    refine .item href hitem hsub (ih (List.Subset.refl _) (.inr ?_))
    unfold guardedItem? at hsub
    cases hitems : schema.get? "items" with
    | none => rw [hitems] at hsub; cases hsub
    | some given =>
      rw [hitems] at hsub
      have hvalue := hentered.get? hroot href hitems (by decide) (by decide)
      cases given with
      | object keywords => cases hsub; exact hvalue
      | array tuple => exact hvalue.item (List.mem_of_getElem? hsub)
      | _ => cases hsub

/-! ## The guard left out -/

theorem settled_of_reachesDiscriminator (h : reachesDiscriminator root = false) :
    ∃ left, Searched root root.references left ∧ Settled left (withoutComponents root) := by
  unfold reachesDiscriminator at h
  cases hsearch : searchCases root root.references (withoutComponents root) with
  | none => rw [hsearch] at h; cases h
  | some left => exact ⟨left.1, settled_of_searchCases _ _ left hsearch⟩

theorem faulty_iff_overlooked (h : reachesDiscriminator root = false) :
    Faulty root root.references root.references root inst ↔
      Overlooked root root.references root.references root inst := by
  obtain ⟨left, hsearched, hroot⟩ := settled_of_reachesDiscriminator h
  exact ⟨fun hfaulty => overlooked_of_faulty hsearched hroot hfaulty (List.Subset.refl _) (.inl rfl),
    Overlooked.faulty⟩

/-- Where the search finds no cases, the guard is silent exactly if it meets no fault behind a property
that the search passes over. Then, and only then, its answer is that of a schema that always runs it. -/
theorem guardViolations_eq_nil_iff (h : reachesDiscriminator root = false) (name : String)
    (inst : Json) :
    (guardViolations root name inst = [] ↔
        ¬ Overlooked root root.references root.references root inst) ∧
      (CompiledSchema.violations ⟨name, root, false⟩ inst =
          CompiledSchema.violations ⟨name, root, true⟩ inst ↔
        ¬ Overlooked root root.references root.references root inst) := by
  have hsilent : guardViolations root name inst = [] ↔
      ¬ Overlooked root root.references root.references root inst := by
    rw [guardViolations, guardWith_eq_nil_iff, faulty_iff_overlooked h]
  refine ⟨hsilent, ?_⟩
  have hsame : CompiledSchema.violationOf ⟨name, root, false⟩ =
      CompiledSchema.violationOf ⟨name, root, true⟩ := rfl
  rw [← hsilent, CompiledSchema.violations, CompiledSchema.violations, hsame]
  simp

end

/-- A property that is named like a data keyword, and whose schema has cases. -/
def defaultProperty : Json :=
  .object [("properties", .object
    [("default", .object (withCases "kind" taggedCases taggedAlternatives))])]

theorem searchCases_defaultProperty (root value : Json) :
    searchCases root [] (.object [("properties", .object [("default", value)])]) =
      some ⟨[], Nat.le_refl _⟩ := by
  have hproperties : searchCases root [] (.object [("default", value)]) =
      some ⟨[], Nat.le_refl _⟩ := by
    rw [searchCases]
    rfl
  rw [searchCases]
  show (Option.map _ (searchCases root [] (.object [("default", value)]))).bind _ = _
  rw [hproperties]
  rfl

theorem reachesDiscriminator_defaultProperty : reachesDiscriminator defaultProperty = false := by
  have hreferences : defaultProperty.references = [] := by decide +kernel
  rw [reachesDiscriminator, hreferences]
  exact congrArg Option.isNone (searchCases_defaultProperty _ _)

theorem defaultProperty_silent_iff :
    reachesDiscriminator defaultProperty = false ∧
      (guardViolations defaultProperty "#/x" (.object []) = [] ↔
        ¬ Overlooked defaultProperty defaultProperty.references defaultProperty.references
          defaultProperty (.object [])) ∧
      (CompiledSchema.violations ⟨"#/x", defaultProperty, false⟩ (.object []) =
          CompiledSchema.violations ⟨"#/x", defaultProperty, true⟩ (.object []) ↔
        ¬ Overlooked defaultProperty defaultProperty.references defaultProperty.references
          defaultProperty (.object [])) :=
  ⟨reachesDiscriminator_defaultProperty,
    guardViolations_eq_nil_iff reachesDiscriminator_defaultProperty "#/x" (.object [])⟩

/-- The search finds no cases, and the guard reports a value that selects none. -/
theorem defaultProperty_overlooked :
    reachesDiscriminator defaultProperty = false ∧
      guardViolations defaultProperty "#/x" (.object [("default", .object [])]) ≠ [] := by
  refine ⟨reachesDiscriminator_defaultProperty, fun hsilent => ?_⟩
  rw [guardViolations, guardWith_eq_nil_iff] at hsilent
  have hfault : Faulty defaultProperty defaultProperty.references defaultProperty.references
      (.object (withCases "kind" taggedCases taggedAlternatives)) (.object []) :=
    .unselected rfl rfl
  have hsub : propertySchema? defaultProperty "default" = some (["properties", "default"],
      .object (withCases "kind" taggedCases taggedAlternatives)) := rfl
  exact hsilent (.property rfl (List.mem_singleton.2 rfl) hsub hfault)

end ApiContract
