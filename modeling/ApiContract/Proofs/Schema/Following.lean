import ApiContract.Proofs.Schema.Passing
import ApiContract.Proofs.Schema.Targets
import Mathlib.Logic.Relation

/-! # References that lead to no cycle

Evaluation keeps a pool of the references it may still follow for an instance. Where no reference leads
back to itself the pool never runs out, so that a schema with a reference asks for what its target asks.

* `Beneath`: the schemas below the keywords of a schema.
* `IsInside`: the parts of an instance that they are asked about.
* `LeadsOn`, `Unrepeated`, `Needs`: to which references a reference leads, and a schema.
* `Covers`: a pool that holds all that a schema may need.
* `Evaluation.passes_iff_of_agree`: pools that hold the same of it give the same verdict.
* `Evaluation.Accepts`: the verdict of a whole evaluation, with `Evaluation.accepts_reference` and
  `Evaluation.accepts_keywords` for its steps. -/

set_option autoImplicit false

namespace ApiContract

open Relation

/-! ## Parts of the root document -/

section

variable {root target : Json} {reference : String}

theorem exists_follow?_of_targetOf (h : targetOf root reference = .ok target) :
    ∃ steps, root.follow? steps = some target := by
  unfold targetOf at h
  split at h
  · cases h
  · split at h
    · unfold targetOfFragment at h
      split at h
      · cases h
        exact ⟨[], rfl⟩
      · dsimp only at h
        split at h
        · exact ⟨_, follow?_of_followSteps h⟩
        · cases h
      · split at h <;> cases h
    · cases h

theorem ordered_of_targetOf (hroot : root.ordered = true) (h : targetOf root reference = .ok target) :
    target.ordered = true := by
  obtain ⟨steps, hsteps⟩ := exists_follow?_of_targetOf h
  exact Json.ordered_of_follow? hroot hsteps

theorem allReferences_subset_of_targetOf (h : targetOf root reference = .ok target) :
    target.allReferences ⊆ root.allReferences := by
  obtain ⟨steps, hsteps⟩ := exists_follow?_of_targetOf h
  exact Json.allReferences_subset_of_follow? hsteps

end

/-! ## Schemas below a schema -/

/-- What stands right below the keywords of a schema, or in a list or in an object there. All schemas
that the keywords apply to the instance itself are among this. -/
inductive Beneath (keywords : Fields) : Json → Prop where
  | value {key : String} {sub : Json} (h : keywords.get? key = some sub) : Beneath keywords sub
  | listed {key : String} {value sub : Json} (h : keywords.get? key = some value)
    (hsub : sub ∈ listed value) : Beneath keywords sub
  | entry {key name : String} {entries : Fields} {sub : Json}
    (h : keywords.get? key = some (.object entries)) (hsub : (name, sub) ∈ entries) :
    Beneath keywords sub

section

variable {keywords : Fields} {sub value : Json}

theorem Beneath.sizeOf_lt (h : Beneath keywords sub) : sizeOf sub < sizeOf (Json.object keywords) := by
  have hget : ∀ {key value}, keywords.get? key = some value →
      sizeOf value < sizeOf (Json.object keywords) :=
    fun hvalue => Json.sizeOf_member_lt (Fields.mem_of_get? hvalue)
  cases h with
  | value h => exact hget h
  | listed h hsub =>
    obtain ⟨items, rfl, hitem⟩ := mem_listed.1 hsub
    exact Nat.lt_trans (Json.sizeOf_item_lt hitem) (hget h)
  | entry h hsub => exact Nat.lt_trans (Json.sizeOf_member_lt hsub) (hget h)

theorem Beneath.ordered_of_get? (hget : ∀ key value, keywords.get? key = some value → value.ordered = true)
    (h : Beneath keywords sub) : sub.ordered = true := by
  cases h with
  | value h => exact hget _ _ h
  | listed h hsub =>
    obtain ⟨items, rfl, hitem⟩ := mem_listed.1 hsub
    exact Json.ordered_array.1 (hget _ _ h) _ hitem
  | entry h hsub => exact (Json.ordered_object.1 (hget _ _ h)).2 _ hsub

theorem Beneath.ordered (ho : (Json.object keywords).ordered = true) (h : Beneath keywords sub) :
    sub.ordered = true :=
  h.ordered_of_get? fun _ _ hvalue => (Json.ordered_object.1 ho).2 _ (Fields.mem_of_get? hvalue)

theorem Beneath.allReferences_subset (h : Beneath keywords sub) :
    sub.allReferences ⊆ (Json.object keywords).allReferences := by
  have hget : ∀ {key value}, keywords.get? key = some value →
      value.allReferences ⊆ (Json.object keywords).allReferences :=
    fun hvalue => Json.allReferences_subset_of_mem (Fields.mem_of_get? hvalue)
  cases h with
  | value h => exact hget h
  | listed h hsub =>
    obtain ⟨items, rfl, hitem⟩ := mem_listed.1 hsub
    exact fun _ hr => hget h (Json.allReferences_subset_of_item hitem hr)
  | entry h hsub => exact fun _ hr => hget h (Json.allReferences_subset_of_mem hsub hr)

end

/-- The schemas of properties are below the keywords. -/
theorem beneath_of_propertySchemas {keywords : Fields} {name : String} {sub : Json}
    (h : sub ∈ propertySchemas keywords name) : Beneath keywords sub := by
  rcases List.mem_append.1 h with hdeclared | hmatched
  · obtain ⟨properties, hproperties, hsub⟩ := declaredProperty?_eq_some.1 (Option.mem_toList.1 hdeclared)
    exact .entry hproperties (Fields.mem_of_get? hsub)
  · obtain ⟨entry, hentry, rfl⟩ := List.mem_map.1 hmatched
    unfold matchingPatterns at hentry
    split at hentry
    · rename_i patterns hpatterns
      exact .entry hpatterns (List.mem_filter.1 hentry).1
    · cases hentry

/-- The schemas of items are below the keywords. -/
theorem beneath_of_itemSchema? {keywords : Fields} {place : Nat} {sub : Json}
    (h : itemSchema? keywords place = some sub) : Beneath keywords sub := by
  unfold itemSchema? at h
  split at h
  · rename_i tuple htuple
    rcases Option.or_eq_some_iff.1 h with hplace | ⟨-, hrest⟩
    · exact .listed htuple (mem_listed.2 ⟨tuple, rfl, List.mem_of_getElem? hplace⟩)
    · exact .value (Option.filter_eq_some_iff.1 hrest).1
  · exact .value (Option.filter_eq_some_iff.1 h).1

theorem MembersPass.imp {inside within : Json → Json → Prop} {keywords fields : Fields}
    (himp : ∀ sub, Beneath keywords sub → ∀ name value, (name, value) ∈ fields →
      inside sub value → within sub value)
    (h : MembersPass inside keywords fields) : MembersPass within keywords fields := by
  intro name value hmem
  obtain ⟨hown, hfurther⟩ := h name value hmem
  refine ⟨fun sub hsub => ?own, fun hnone sub hsub hschema => ?further⟩
  case own => exact himp sub (beneath_of_propertySchemas hsub) name value hmem (hown sub hsub)
  case further => exact himp sub (.value hsub) name value hmem (hfurther hnone sub hsub hschema)

theorem ItemsPass.imp {inside within : Json → Json → Prop} {keywords : Fields} {items : List Json}
    (himp : ∀ sub, Beneath keywords sub → ∀ item ∈ items, inside sub item → within sub item)
    (h : ItemsPass inside keywords items) : ItemsPass within keywords items :=
  fun i item hitem sub hsub =>
    himp sub (beneath_of_itemSchema? hsub) item (List.mem_of_getElem? hitem) (h i item hitem sub hsub)

/-! ## Parts of instances -/

/-- What schemas inside are asked about: a member or an item of an instance, or the name of a member. -/
structure IsInside (inst part : Json) : Prop where
  smaller : sizeOf part < sizeOf inst
  ordered : part.ordered = true

section

variable {inst value : Json} {fields : Fields} {items : List Json} {name : String}

theorem IsInside.member (hinst : inst.ordered = true) (hfields : inst = .object fields)
    (hmem : (name, value) ∈ fields) : IsInside inst value := by
  subst hfields
  exact ⟨Json.sizeOf_member_lt hmem, (Json.ordered_object.1 hinst).2 _ hmem⟩

theorem IsInside.key (hfields : inst = .object fields) (hmem : (name, value) ∈ fields) :
    IsInside inst (.string name) := by
  subst hfields
  exact ⟨Json.sizeOf_name_lt hmem, rfl⟩

theorem IsInside.item (hinst : inst.ordered = true) (hitems : inst = .array items) (hmem : value ∈ items) :
    IsInside inst value := by
  subst hitems
  exact ⟨Json.sizeOf_item_lt hmem, Json.ordered_array.1 hinst value hmem⟩

end

/-- Keywords ask the same if the instance and its parts pass the same of the schemas below them. -/
theorem Fulfils.congr {here given : Json → Prop} {inside within : Json → Json → Prop}
    {keywords : Fields} {inst : Json} (hinst : inst.ordered = true)
    (hhere : ∀ sub, Beneath keywords sub → (here sub ↔ given sub))
    (hinside : ∀ sub, Beneath keywords sub → ∀ part, IsInside inst part → (inside sub part ↔ within sub part))
    (h : Fulfils here inside keywords inst) : Fulfils given within keywords inst where
  asserts := h.asserts
  all value hvalue sub hsub := (hhere sub (.listed hvalue hsub)).1 (h.all value hvalue sub hsub)
  any value hvalue := by
    obtain ⟨sub, hsub, hpasses⟩ := h.any value hvalue
    exact ⟨sub, hsub, (hhere sub (.listed hvalue hsub)).1 hpasses⟩
  one value hvalue :=
    (exactlyOne_congr fun sub hsub => hhere sub (.listed hvalue hsub)).1 (h.one value hvalue)
  not sub hsub hgiven := h.not sub hsub ((hhere sub (.value hsub)).2 hgiven)
  condition test htest := by
    have hiff := hhere test (.value htest)
    obtain ⟨hyes, hno⟩ := h.condition test htest
    refine ⟨fun sub hsub hgiven => ?_, fun sub hsub hgiven => ?_⟩
    · exact (hhere sub (.value hsub)).1 (hyes sub hsub (hiff.2 hgiven))
    · exact (hhere sub (.value hsub)).1 (hno sub hsub (mt hiff.1 hgiven))
  members fields hfields := (h.members fields hfields).imp fun sub hsub _ value hmem =>
    (hinside sub hsub value (.member hinst hfields hmem)).1
  names fields hfields sub hsub hschema name value hmem :=
    (hinside sub (.value hsub) _ (.key hfields hmem)).1
      (h.names fields hfields sub hsub hschema name value hmem)
  dependencies fields hfields entries hentries name dependency hmem hname :=
    (h.dependencies fields hfields entries hentries name dependency hmem hname).imp
      (hhere dependency (.entry hentries hmem)).1
  items items hitems := (h.items items hitems).imp fun sub hsub item hmem =>
    (hinside sub hsub item (.item hinst hitems hmem)).1
  contains items hitems sub hsub := by
    obtain ⟨item, hitem, hpasses⟩ := h.contains items hitems sub hsub
    exact ⟨item, hitem, (hinside sub (.value hsub) item (.item hinst hitems hitem)).1 hpasses⟩

/-! ## Needed references -/

/-- A reference leads on to another one, which stands in its target. -/
def LeadsOn (root : Json) (first second : String) : Prop :=
  ∃ target, targetOf root first = .ok target ∧ second ∈ target.allReferences

/-- No reference of a document leads back to itself. -/
def Unrepeated (root : Json) : Prop := ∀ reference, ¬ TransGen (LeadsOn root) reference reference

/-- A schema leads to a reference: it stands in the schema, or one that does leads on to it. -/
def Needs (root schema : Json) (reference : String) : Prop :=
  ∃ first ∈ schema.allReferences, ReflTransGen (LeadsOn root) first reference

/-- A pool holds all references that a schema leads to. -/
def Covers (root : Json) (pool : List String) (schema : Json) : Prop :=
  ∀ reference, Needs root schema reference → reference ∈ pool

/-- Two pools hold the same of the references that a schema leads to. -/
def PoolsAgree (root : Json) (pool within : List String) (schema : Json) : Prop :=
  ∀ reference, Needs root schema reference → (reference ∈ pool ↔ reference ∈ within)

section

variable {root given schema sub target : Json} {pool within : List String} {keywords : Fields}
  {reference other : String}

theorem mem_allReferences_of_get? (href : keywords.get? "$ref" = some (.string reference)) :
    reference ∈ (Json.object keywords).allReferences := by
  rw [Json.allReferences]
  exact Json.mem_allReferencesOfFields.2 (.inl (Fields.mem_of_get? href))

theorem Needs.beneath (hsub : Beneath keywords sub) (h : Needs root sub reference) :
    Needs root (.object keywords) reference := by
  obtain ⟨first, hfirst, hway⟩ := h
  exact ⟨first, hsub.allReferences_subset hfirst, hway⟩

theorem Needs.transGen (htarget : targetOf root reference = .ok target) (h : Needs root target other) :
    TransGen (LeadsOn root) reference other := by
  obtain ⟨first, hfirst, hway⟩ := h
  exact .head' ⟨target, htarget, hfirst⟩ hway

theorem Needs.of_target (href : keywords.get? "$ref" = some (.string reference))
    (htarget : targetOf root reference = .ok target) (h : Needs root target other) :
    Needs root (.object keywords) other :=
  ⟨reference, mem_allReferences_of_get? href, (h.transGen htarget).to_reflTransGen⟩

/-- A schema leads to the same references in a document in which these have the same targets. -/
theorem Needs.of_same_targets (hsame : ∀ reference, Needs root schema reference →
      Needs given schema reference → ∀ target,
        targetOf root reference = .ok target → targetOf given reference = .ok target)
    (h : Needs root schema reference) : Needs given schema reference := by
  obtain ⟨first, hfirst, hway⟩ := h
  induction hway with
  | refl => exact ⟨first, hfirst, .refl⟩
  | tail hbefore hstep ih =>
    obtain ⟨start, hstart, hreached⟩ := ih
    obtain ⟨target, htarget, hmem⟩ := hstep
    have hown := hsame _ ⟨first, hfirst, hbefore⟩ ⟨start, hstart, hreached⟩ target htarget
    exact ⟨start, hstart, hreached.tail ⟨target, hown, hmem⟩⟩

theorem Needs.mem (hschema : schema.allReferences ⊆ root.allReferences)
    (h : Needs root schema reference) : reference ∈ root.allReferences := by
  obtain ⟨first, hfirst, hway⟩ := h
  induction hway with
  | refl => exact hschema hfirst
  | tail _ hstep _ =>
    obtain ⟨target, htarget, hmem⟩ := hstep
    exact allReferences_subset_of_targetOf htarget hmem

theorem covers_references (h : schema.allReferences ⊆ root.allReferences) :
    Covers root root.references schema :=
  fun _ hneeds => Json.mem_references.2 (hneeds.mem h)

theorem Covers.mem (h : Covers root pool (.object keywords))
    (href : keywords.get? "$ref" = some (.string reference)) : reference ∈ pool :=
  h reference ⟨reference, mem_allReferences_of_get? href, .refl⟩

theorem Covers.beneath (h : Covers root pool (.object keywords)) (hsub : Beneath keywords sub) :
    Covers root pool sub :=
  fun other hneeds => h other (hneeds.beneath hsub)

/-- The reference that is followed is not needed any more. -/
theorem Covers.without (hroot : Unrepeated root) (h : Covers root pool (.object keywords))
    (href : keywords.get? "$ref" = some (.string reference))
    (htarget : targetOf root reference = .ok target) :
    Covers root (withoutReference reference pool) target := by
  intro other hneeds
  have hne : other ≠ reference := by
    rintro rfl
    exact hroot other (hneeds.transGen htarget)
  exact List.mem_filter.2 ⟨h other (hneeds.of_target href htarget), by simpa using hne⟩

theorem Covers.agree (hpool : Covers root pool schema) (hwithin : Covers root within schema) :
    PoolsAgree root pool within schema :=
  fun other hneeds => iff_of_true (hpool other hneeds) (hwithin other hneeds)

theorem PoolsAgree.beneath (h : PoolsAgree root pool within (.object keywords)) (hsub : Beneath keywords sub) :
    PoolsAgree root pool within sub :=
  fun other hneeds => h other (hneeds.beneath hsub)

theorem PoolsAgree.of_target (h : PoolsAgree root pool within (.object keywords))
    (href : keywords.get? "$ref" = some (.string reference))
    (htarget : targetOf root reference = .ok target) : PoolsAgree root pool within target :=
  fun other hneeds => h other (hneeds.of_target href htarget)

/-- Two pools still agree after the same reference has been taken out of both. -/
theorem PoolsAgree.without (h : PoolsAgree root pool within schema) :
    PoolsAgree root (withoutReference reference pool) (withoutReference reference within) schema := by
  intro other hneeds
  rw [withoutReference, withoutReference, List.mem_filter, List.mem_filter, h other hneeds]

/-- References whose targets have no references lead back to nothing. -/
theorem unrepeated_of_last (h : ∀ reference ∈ root.allReferences, ∀ target,
    targetOf root reference = .ok target → target.allReferences = []) : Unrepeated root := by
  intro reference hcycle
  have hmem : reference ∈ root.allReferences := by
    obtain ⟨last, -, target, htarget, hmem⟩ := TransGen.tail'_iff.1 hcycle
    exact allReferences_subset_of_targetOf htarget hmem
  obtain ⟨next, ⟨target, htarget, hnext⟩, -⟩ := TransGen.head'_iff.1 hcycle
  rw [h reference hmem target htarget] at hnext
  cases hnext

end

/-! ## Pools that agree -/

namespace Evaluation

section

variable {root other : Json} {known given : List String}

/-- Two pools that agree on a schema give the same verdict, also in another document if the references
that the schema leads to have the same targets there. -/
theorem passes_iff_of_agree (hroot : root.ordered = true) (pool within : List String)
    (schema inst : Json) (hordered : schema.ordered = true) (hinst : inst.ordered = true)
    (hsame : ∀ reference, Needs root schema reference → ∀ target,
      targetOf other reference = .ok target ↔ targetOf root reference = .ok target)
    (hknown : PoolsAgree root known given schema) (hpool : PoolsAgree root pool within schema) :
    Passes root known pool schema inst ↔ Passes other given within schema inst := by
  cases schema with
  | object keywords =>
    by_cases href : ∃ reference, Fields.get? "$ref" keywords = some (.string reference)
    · obtain ⟨reference, href⟩ := href
      have hneeded : Needs root (.object keywords) reference :=
        ⟨reference, mem_allReferences_of_get? href, .refl⟩
      rw [passes_reference href, passes_reference href, ← hpool reference hneeded]
      refine imp_congr_right fun hmem => forall_congr' fun target => ?_
      rw [hsame reference hneeded target]
      refine imp_congr_right fun htarget => ?_
      exact passes_iff_of_agree hroot _ _ target inst (ordered_of_targetOf hroot htarget) hinst
        (fun next hneeds => hsame next (hneeds.of_target href htarget))
        (hknown.of_target href htarget) (hpool.of_target href htarget).without
    · have hnone : ∀ reference, Fields.get? "$ref" keywords ≠ some (.string reference) :=
        fun reference h => href ⟨reference, h⟩
      have hhere : ∀ sub, Beneath keywords sub →
          (Passes root known pool sub inst ↔ Passes other given within sub inst) := by
        intro sub hsub
        have hsmaller := hsub.sizeOf_lt
        exact passes_iff_of_agree hroot pool within sub inst (hsub.ordered hordered) hinst
          (fun next hneeds => hsame next (hneeds.beneath hsub)) (hknown.beneath hsub)
          (hpool.beneath hsub)
      have hinside : ∀ sub, Beneath keywords sub → ∀ part, IsInside inst part →
          (Passes root known known sub part ↔ Passes other given given sub part) := by
        intro sub hsub part ⟨hinner, hpart⟩
        exact passes_iff_of_agree hroot known given sub part (hsub.ordered hordered) hpart
          (fun next hneeds => hsame next (hneeds.beneath hsub)) (hknown.beneath hsub)
          (hknown.beneath hsub)
      rw [passes_iff_fulfils hordered hinst hnone, passes_iff_fulfils hordered hinst hnone]
      exact ⟨fun h => h.congr hinst hhere hinside,
        fun h => h.congr hinst (fun sub hsub => (hhere sub hsub).symm)
          fun sub hsub part hpart => (hinside sub hsub part hpart).symm⟩
  | bool b =>
    cases b with
    | true => exact iff_of_true passes_true passes_true
    | false => exact iff_of_false not_passes_false not_passes_false
  | _ => simp [Passes, findingsWith]
-- members and items are smaller instances, a reference leaves the pool, everything else is a smaller schema
termination_by (sizeOf inst, pool.length, sizeOf schema)
decreasing_by
  · exact Prod.Lex.right _ (Prod.Lex.left _ _ (length_withoutReference_lt hmem))
  · subst_eqs
    exact Prod.Lex.right _ (Prod.Lex.right _ hsmaller)
  · exact Prod.Lex.left _ _ hinner

end

/-! ## The verdict of a whole evaluation -/

/-- A whole evaluation finds nothing. -/
def Accepts (root schema inst : Json) : Prop := findings root schema inst = []

section

variable {root other schema inst : Json} {keywords : Fields}

theorem accepts_iff_passes :
    Accepts root schema inst ↔ Passes root root.references root.references schema inst := Iff.rfl

/-- Documents in which the references have the same targets give the same verdict. -/
theorem accepts_iff_of_same_targets (hroot : root.ordered = true)
    (hschema : schema.ordered = true) (hinst : inst.ordered = true)
    (hknown : schema.allReferences ⊆ root.allReferences)
    (hother : schema.allReferences ⊆ other.allReferences)
    (hsame : ∀ reference, Needs root schema reference → ∀ target,
      targetOf other reference = .ok target ↔ targetOf root reference = .ok target) :
    Accepts root schema inst ↔ Accepts other schema inst := by
  have hcovers := covers_references hknown
  have hgiven : Covers root other.references schema :=
    fun reference hneeds => Json.mem_references.2 <| Needs.mem hother <|
      hneeds.of_same_targets fun needed hneeded _ target => (hsame needed hneeded target).2
  exact passes_iff_of_agree hroot _ _ schema inst hschema hinst hsame (hcovers.agree hgiven)
    (hcovers.agree hgiven)

theorem accepts_reference (hroot : root.ordered = true) (hcycle : Unrepeated root)
    (hinst : inst.ordered = true) {reference : String}
    (hknown : (Json.object keywords).allReferences ⊆ root.allReferences)
    (href : Fields.get? "$ref" keywords = some (.string reference)) :
    Accepts root (.object keywords) inst ↔
      ∀ target, targetOf root reference = .ok target → Accepts root target inst := by
  have hcovers := covers_references hknown
  rw [accepts_iff_passes, passes_reference href, imp_iff_right (hcovers.mem href)]
  refine forall_congr' fun target => imp_congr_right fun htarget => ?_
  have hall := covers_references (allReferences_subset_of_targetOf htarget)
  exact passes_iff_of_agree hroot _ _ target inst (ordered_of_targetOf hroot htarget) hinst
    (fun _ _ _ => Iff.rfl) (hall.agree hall) ((hcovers.without hcycle href htarget).agree hall)

theorem accepts_keywords (hordered : (Json.object keywords).ordered = true)
    (hinst : inst.ordered = true)
    (href : ∀ reference, Fields.get? "$ref" keywords ≠ some (.string reference)) :
    Accepts root (.object keywords) inst ↔
      Fulfils (fun sub => Accepts root sub inst) (Accepts root) keywords inst :=
  passes_iff_fulfils hordered hinst href

end

end Evaluation

end ApiContract
