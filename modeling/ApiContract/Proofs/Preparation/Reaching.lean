import ApiContract.Proofs.Json.Pointers
import ApiContract.Proofs.Preparation.Merging
import Mathlib.Data.Multiset.Powerset
import Mathlib.Data.Set.Card
import Mathlib.Data.Set.Finite.Lattice
import Mathlib.Logic.Relation

/-! # What compositions reach

Flattening takes a composition apart and puts the parts together again, and where several parts have a
property it makes a composition of the schemas of this property. What it may come to is told by the document
alone.

* `NodeStep`: nesting and references.
* `UnfoldsTo`: schemas that are merged, with references followed and compositions taken apart.
* `Collects`: the schemas that merged schemas have for one property; `Joined`, `PairStep`: two at a time.
* `Below`: what stands in schemas or is reached from there.
* `Merged`: the schemas that are merged at all.
* `UnfoldsTo.pair`: two schemas come from two, or from the parts of one composition.
* `finite_reached`: there are finitely many nodes to come to. -/

set_option autoImplicit false

namespace ApiContract

open Relation

/-! ## Nodes -/

/-- The list under `allOf`, which makes a schema a composition. -/
def fragments? (schema : Json) : Option (List Json) := (schema.get? "allOf").bind Json.items?

/-- The keywords of a composition beside its fragments. -/
def ownPart : Json → Json
  | .object fields => .object (Fields.erase "allOf" fields)
  | other => other

/-- The schemas that a composition is made of. -/
def partsOf (schema : Json) (fragments : List Json) : Multiset Json :=
  ownPart schema ::ₘ (fragments : Multiset Json)

/-- The schema of a property. -/
def property? (name : String) (schema : Json) : Option Json :=
  schema.fields?.bind fun fields => declaredProperty? fields name

/-- From a node to one that stands in it, outside of data, or to what it refers to. The keywords of a
composition beside its fragments count as a node. -/
inductive NodeStep (document : Json) : Json → Json → Prop where
  | member {fields : Fields} {key : String} {value : Json} (hmem : (key, value) ∈ fields)
    (hdata : isDataKeyword key = false) : NodeStep document (.object fields) value
  | item {items : List Json} {value : Json} (hmem : value ∈ items) : NodeStep document (.array items) value
  | target {node target : Json} {reference : String} (href : node.reference? = some reference)
    (htarget : document.resolve? reference = some target) : NodeStep document node target
  | own {node : Json} {fragments : List Json} (h : fragments? node = some fragments) :
    NodeStep document node (ownPart node)

/-- From a reference to what it refers to. -/
def Follows (document node target : Json) : Prop :=
  ∃ reference, node.reference? = some reference ∧ document.resolve? reference = some target

section

variable {document schema node part : Json} {fragments : List Json} {name : String}

theorem Follows.nodeStep (h : Follows document node part) : NodeStep document node part := by
  obtain ⟨reference, href, htarget⟩ := h
  exact .target href htarget

theorem fragments?_eq_some : fragments? schema = some fragments ↔
    ∃ fields : Fields, schema = .object fields ∧ fields.get? "allOf" = some (.array fragments) := by
  unfold fragments?
  constructor
  · intro h
    obtain ⟨list, hlist, hitems⟩ := Option.bind_eq_some_iff.1 h
    cases schema with
    | object fields =>
      cases list with
      | array items =>
        cases hitems
        exact ⟨fields, rfl, hlist⟩
      | _ => cases hitems
    | _ => cases hlist
  · rintro ⟨fields, rfl, hlist⟩
    have hget : (Json.object fields).get? "allOf" = some (.array fragments) := hlist
    rw [hget]
    rfl

theorem fragments?_of_get? {fields : Fields} {value : Json} (h : fields.get? "allOf" = some value) :
    fragments? (.object fields) = value.items? := by
  have hget : (Json.object fields).get? "allOf" = some value := h
  rw [fragments?, hget]
  rfl

theorem fragments?_eq_none {fields : Fields} : fragments? (.object fields) = none ↔
    ∀ value, fields.get? "allOf" = some value → value.items? = none :=
  Option.bind_eq_none_iff

theorem fragments?_of_get?_eq_none {fields : Fields} (h : fields.get? "allOf" = none) :
    fragments? (.object fields) = none := by
  refine fragments?_eq_none.2 fun value hvalue => ?_
  rw [h] at hvalue
  cases hvalue

theorem composedFields?_of_fragments?_eq_none {fields : Fields} {depth : Nat} {followed : List String}
    (h : fragments? (.object fields) = none) :
    composedFields? document depth followed fields = some fields := by
  refine composedFields?_of_no_fragments fun fragments hlist => ?_
  rw [fragments?_of_get? hlist] at h
  cases h

theorem NodeStep.of_get? {fields : Fields} {key : String} {value : Json} (h : fields.get? key = some value)
    (hdata : isDataKeyword key = false) : NodeStep document (.object fields) value :=
  .member (Fields.mem_of_get? h) hdata

theorem transGen_of_mem_partsOf (h : fragments? schema = some fragments)
    (hmem : part ∈ partsOf schema fragments) : TransGen (NodeStep document) schema part := by
  rcases Multiset.mem_cons.1 hmem with rfl | hfragment
  · exact .single (.own h)
  · obtain ⟨fields, rfl, hlist⟩ := fragments?_eq_some.1 h
    exact .tail (.single (.of_get? hlist (by decide))) (.item hfragment)

theorem transGen_of_property? (h : property? name schema = some part) (hdata : isDataKeyword name = false) :
    TransGen (NodeStep document) schema part := by
  cases schema with
  | object fields =>
    obtain ⟨properties, hproperties, hname⟩ := declaredProperty?_eq_some.1 (show declaredProperty? fields name =
      some part from h)
    exact .tail (.single (.of_get? hproperties (by decide))) (.of_get? hname hdata)
  | _ => cases h

/-! ## Finitely many nodes -/

theorem finite_parts (value : Json) : {part | ∃ steps, value.Leads steps part}.Finite := by
  induction value using Json.partsInduction with
  | object fields ih =>
    have hparts : {part | ∃ steps, (Json.object fields).Leads steps part} ⊆
        {Json.object fields} ∪ ⋃ field ∈ {field | field ∈ fields},
          {part | ∃ steps, field.2.Leads steps part} := by
      rintro part ⟨steps, hleads⟩
      cases hleads with
      | here => exact .inl rfl
      | member hmem hrest => exact .inr (Set.mem_biUnion hmem ⟨_, hrest⟩)
    refine Set.Finite.subset (.union (Set.finite_singleton _) ?_) hparts
    exact Set.Finite.biUnion (List.finite_toSet fields) fun field hfield => ih field hfield
  | array items ih =>
    have hparts : {part | ∃ steps, (Json.array items).Leads steps part} ⊆
        {Json.array items} ∪ ⋃ item ∈ {item | item ∈ items}, {part | ∃ steps, item.Leads steps part} := by
      rintro part ⟨steps, hleads⟩
      cases hleads with
      | here => exact .inl rfl
      | item hitem hrest => exact .inr (Set.mem_biUnion (List.mem_of_getElem? hitem) ⟨_, hrest⟩)
    refine Set.Finite.subset (.union (Set.finite_singleton _) ?_) hparts
    exact Set.Finite.biUnion (List.finite_toSet items) fun item hitem => ih item hitem
  | plain value hobject hlist =>
    refine (Set.finite_singleton value).subset ?_
    rintro part ⟨steps, hleads⟩
    cases hleads with
    | here => rfl
    | member => exact absurd rfl (hobject _)
    | item => exact absurd rfl (hlist _)

theorem Json.Leads.of_follow? {value : Json} {steps : List String} (h : value.follow? steps = some part) :
    ∃ more, value.Leads more part := by
  induction steps generalizing value with
  | nil =>
    cases h
    exact ⟨[], .here _⟩
  | cons step rest ih =>
    obtain ⟨next, hnext, hrest⟩ := Option.bind_eq_some_iff.1 h
    obtain ⟨more, hmore⟩ := ih hrest
    cases value with
    | object fields => exact ⟨_, .member (Fields.mem_of_get? hnext) hmore⟩
    | array items =>
      obtain ⟨i, -, hi⟩ := Option.bind_eq_some_iff.1 hnext
      exact ⟨_, .item hi hmore⟩
    | _ => cases hnext

theorem fragments?_ownPart (schema : Json) : fragments? (ownPart schema) = none := by
  cases schema with
  | object fields => simp [fragments?, ownPart, Json.get?]
  | _ => rfl

/-- What is reached stands in the document, or is the rest of a composition that does. -/
theorem reached_parts (h : ReflTransGen (NodeStep document) document node) :
    ∃ part, (∃ steps, document.Leads steps part) ∧ (node = part ∨ node = ownPart part) := by
  induction h with
  | refl => exact ⟨document, ⟨[], .here document⟩, .inl rfl⟩
  | tail _ hstep ih =>
    obtain ⟨part, ⟨steps, hleads⟩, hnode⟩ := ih
    cases hstep with
    | member hmem _ =>
      rcases hnode with rfl | hnode
      · exact ⟨_, ⟨_, hleads.trans (.member hmem (.here _))⟩, .inl rfl⟩
      · cases part with
        | object fields =>
          cases hnode
          exact ⟨_, ⟨_, hleads.trans (.member (List.mem_of_mem_filter hmem) (.here _))⟩, .inl rfl⟩
        | _ => cases hnode
    | item hmem =>
      obtain ⟨i, hi⟩ := List.mem_iff_getElem?.1 hmem
      rcases hnode with rfl | hnode
      · exact ⟨_, ⟨_, hleads.trans (.item hi (.here _))⟩, .inl rfl⟩
      · cases part with
        | array items =>
          cases hnode
          exact ⟨_, ⟨_, hleads.trans (.item hi (.here _))⟩, .inl rfl⟩
        | _ => cases hnode
    | target _ htarget =>
      obtain ⟨pointer, -, hfollow⟩ := Option.bind_eq_some_iff.1 htarget
      obtain ⟨more, hmore⟩ := Json.Leads.of_follow? hfollow
      exact ⟨_, ⟨more, hmore⟩, .inl rfl⟩
    | own hfragments =>
      rcases hnode with rfl | rfl
      · exact ⟨_, ⟨steps, hleads⟩, .inr rfl⟩
      · rw [fragments?_ownPart] at hfragments
        cases hfragments

theorem finite_reached (document : Json) : {node | ReflTransGen (NodeStep document) document node}.Finite := by
  have hparts := finite_parts document
  refine (hparts.union (hparts.image ownPart)).subset fun node hnode => ?_
  obtain ⟨part, hpart, rfl | rfl⟩ := reached_parts hnode
  · exact .inl hpart
  · exact .inr ⟨part, hpart, rfl⟩

end

/-! ## Taking schemas apart -/

/-- Of several schemas one is taken apart: its reference is followed, it is a composition and its parts
replace it, or it is left out. -/
inductive UnfoldStep (document : Json) : Multiset Json → Multiset Json → Prop where
  | follow {schema target : Json} {others : Multiset Json} {reference : String}
    (href : schema.reference? = some reference) (htarget : document.resolve? reference = some target) :
    UnfoldStep document (schema ::ₘ others) (target ::ₘ others)
  | split {schema : Json} {others : Multiset Json} {fragments : List Json}
    (h : fragments? schema = some fragments) :
    UnfoldStep document (schema ::ₘ others) (partsOf schema fragments + others)
  | drop (schema : Json) (others : Multiset Json) : UnfoldStep document (schema ::ₘ others) others

/-- Schemas that are merged, and others that they are made of. -/
def UnfoldsTo (document : Json) : Multiset Json → Multiset Json → Prop := ReflTransGen (UnfoldStep document)

section

variable {document schema node : Json} {schemas parts others given both : Multiset Json} {fragments : List Json}

theorem UnfoldsTo.trans (h : UnfoldsTo document schemas parts) (hparts : UnfoldsTo document parts given) :
    UnfoldsTo document schemas given :=
  ReflTransGen.trans h hparts

theorem UnfoldsTo.add (h : UnfoldsTo document schemas parts) (others : Multiset Json) :
    UnfoldsTo document (schemas + others) (parts + others) := by
  induction h with
  | refl => exact .refl
  | tail _ hstep ih =>
    refine ih.tail ?_
    cases hstep with
    | follow href htarget => simpa only [Multiset.cons_add] using .follow href htarget
    | split hfragments => simpa only [Multiset.cons_add, Multiset.add_assoc] using .split hfragments
    | drop schema => simpa only [Multiset.cons_add] using .drop schema _

theorem UnfoldsTo.add_both {more left : Multiset Json} (h : UnfoldsTo document schemas parts)
    (hmore : UnfoldsTo document more left) : UnfoldsTo document (schemas + more) (parts + left) := by
  have hright := hmore.add parts
  rw [Multiset.add_comm more, Multiset.add_comm left] at hright
  exact (h.add more).trans hright

theorem unfoldsTo_of_le (h : parts ≤ schemas) : UnfoldsTo document schemas parts := by
  obtain ⟨others, rfl⟩ := Multiset.le_iff_exists_add.1 h
  induction others using Multiset.induction with
  | empty =>
    rw [Multiset.add_zero]
    exact .refl
  | cons schema others ih =>
    rw [Multiset.add_cons]
    exact .head (.drop schema (parts + others)) (ih (Multiset.le_add_right _ _))

theorem unfoldsTo_parts (h : fragments? schema = some fragments) :
    UnfoldsTo document {schema} (partsOf schema fragments) := by
  have hstep : UnfoldStep document (schema ::ₘ 0) (partsOf schema fragments + 0) := .split h
  rw [Multiset.add_zero] at hstep
  exact .single hstep

/-- Each schema was there, or is what one refers to, or a part of one. -/
theorem UnfoldStep.mem_cases (h : UnfoldStep document schemas parts) (hmem : node ∈ parts) :
    node ∈ schemas ∨ ∃ schema ∈ schemas, Follows document schema node ∨
      ∃ fragments, fragments? schema = some fragments ∧ node ∈ partsOf schema fragments := by
  cases h with
  | @follow schema target others reference href htarget =>
    rcases Multiset.mem_cons.1 hmem with rfl | hmem
    · exact .inr ⟨schema, Multiset.mem_cons_self _ _, .inl ⟨reference, href, htarget⟩⟩
    · exact .inl (Multiset.mem_cons_of_mem hmem)
  | @split schema others fragments hfragments =>
    rcases Multiset.mem_add.1 hmem with hmem | hmem
    · exact .inr ⟨schema, Multiset.mem_cons_self _ _, .inr ⟨fragments, hfragments, hmem⟩⟩
    · exact .inl (Multiset.mem_cons_of_mem hmem)
  | drop schema others => exact .inl (Multiset.mem_cons_of_mem hmem)

theorem UnfoldStep.exists_mem (h : UnfoldStep document schemas parts) (hmem : node ∈ parts) :
    ∃ schema ∈ schemas, UnfoldsTo document {schema} {node} := by
  rcases h.mem_cases hmem with hmem | ⟨schema, hschema, hfollows | ⟨fragments, hfragments, hpart⟩⟩
  · exact ⟨node, hmem, .refl⟩
  · obtain ⟨reference, href, htarget⟩ := hfollows
    exact ⟨schema, hschema, .single (.follow href htarget)⟩
  · refine ⟨schema, hschema, (unfoldsTo_parts hfragments).trans (unfoldsTo_of_le ?_)⟩
    exact Multiset.singleton_le.2 hpart

theorem UnfoldStep.reaches (h : UnfoldStep document schemas parts) (hmem : node ∈ parts) :
    ∃ schema ∈ schemas, ReflTransGen (NodeStep document) schema node := by
  rcases h.mem_cases hmem with hmem | ⟨schema, hschema, hfollows | ⟨fragments, hfragments, hpart⟩⟩
  · exact ⟨node, hmem, .refl⟩
  · exact ⟨schema, hschema, .single hfollows.nodeStep⟩
  · exact ⟨schema, hschema, (transGen_of_mem_partsOf hfragments hpart).to_reflTransGen⟩

theorem UnfoldsTo.reaches (h : UnfoldsTo document schemas parts) (hmem : node ∈ parts) :
    ∃ schema ∈ schemas, ReflTransGen (NodeStep document) schema node := by
  induction h generalizing node with
  | refl => exact ⟨node, hmem, .refl⟩
  | tail _ hstep ih =>
    obtain ⟨middle, hmiddle, hnode⟩ := hstep.reaches hmem
    obtain ⟨schema, hschema, hreaches⟩ := ih hmiddle
    exact ⟨schema, hschema, hreaches.trans hnode⟩

/-! ## Two schemas at a time -/

theorem exists_add_of_le {α : Type} {part first second : Multiset α} (h : part ≤ first + second) :
    ∃ left ≤ first, ∃ right ≤ second, part = left + right := by
  classical
  refine ⟨part ∩ first, Multiset.inter_le_right, part - first, tsub_le_iff_left.2 h, ?_⟩
  rw [Multiset.add_comm, Multiset.sub_add_inter]

/-- Two schemas that one step leads to come from two, or from one composition. -/
theorem UnfoldStep.pair (h : UnfoldStep document schemas parts) (hboth : both ≤ parts)
    (hcard : Multiset.card both = 2) :
    (∃ given ≤ schemas, Multiset.card given = 2 ∧ UnfoldsTo document given both) ∨
      ∃ schema ∈ schemas, ∃ fragments, fragments? schema = some fragments ∧
        both ≤ partsOf schema fragments := by
  cases h with
  | @follow schema target others reference href htarget =>
    obtain ⟨left, hleft, right, hright, rfl⟩ := exists_add_of_le (show both ≤ {target} + others from hboth)
    rcases Multiset.le_singleton.1 hleft with rfl | rfl
    · exact .inl ⟨_, (show 0 + right ≤ others by simpa using hright).trans (Multiset.le_cons_self _ _),
        hcard, .refl⟩
    · refine .inl ⟨schema ::ₘ right, (Multiset.cons_le_cons_iff _).2 hright, ?_, .single (.follow href htarget)⟩
      simpa using hcard
  | @split schema others fragments hfragments =>
    obtain ⟨left, hleft, right, hright, rfl⟩ := exists_add_of_le hboth
    rw [Multiset.card_add] at hcard
    obtain hnone | hone | htwo : Multiset.card left = 0 ∨ Multiset.card left = 1 ∨ Multiset.card left = 2 := by
      omega
    · obtain rfl := Multiset.card_eq_zero.1 hnone
      exact .inl ⟨_, (show 0 + right ≤ others by simpa using hright).trans
        (Multiset.le_cons_self _ _), by simpa using hcard, .refl⟩
    · refine .inl ⟨schema ::ₘ right, (Multiset.cons_le_cons_iff _).2 hright, by simp; omega, ?_⟩
      exact .head (.split hfragments) (unfoldsTo_of_le (Multiset.add_le_add_right hleft))
    · obtain rfl : right = 0 := Multiset.card_eq_zero.1 (by omega)
      exact .inr ⟨schema, Multiset.mem_cons_self _ _, fragments, hfragments, by simpa using hleft⟩
  | drop schema others => exact .inl ⟨both, hboth.trans (Multiset.le_cons_self _ _), hcard, .refl⟩

/-- Two schemas come from two, or from the parts of one composition. -/
theorem UnfoldsTo.pair (h : UnfoldsTo document schemas parts) (hboth : both ≤ parts)
    (hcard : Multiset.card both = 2) :
    (∃ given ≤ schemas, Multiset.card given = 2 ∧ UnfoldsTo document given both) ∨
      ∃ schema ∈ schemas, ∃ node fragments, UnfoldsTo document {schema} {node} ∧
        fragments? node = some fragments ∧ ∃ given ≤ partsOf node fragments, Multiset.card given = 2 ∧
          UnfoldsTo document given both := by
  induction h using ReflTransGen.head_induction_on with
  | refl => exact .inl ⟨both, hboth, hcard, .refl⟩
  | head hstep _ ih =>
    rcases ih with ⟨given, hgiven, htwo, hunfolds⟩ | ⟨schema, hschema, node, fragments, hnode, hrest⟩
    · rcases hstep.pair hgiven htwo with ⟨first, hfirst, hsame, hfirst'⟩ |
        ⟨schema, hschema, fragments, hfragments, hle⟩
      · exact .inl ⟨first, hfirst, hsame, hfirst'.trans hunfolds⟩
      · exact .inr ⟨schema, hschema, schema, fragments, .refl, hfragments, given, hle, htwo, hunfolds⟩
    · obtain ⟨first, hfirst, hreaches⟩ := hstep.exists_mem hschema
      exact .inr ⟨first, hfirst, node, fragments, hreaches.trans hnode, hrest⟩

/-- One schema stays one, or it is made of the parts of a composition. -/
theorem UnfoldsTo.single (h : UnfoldsTo document {schema} parts) :
    (∃ node, UnfoldsTo document {schema} {node} ∧ parts ≤ {node}) ∨
      ∃ node fragments, UnfoldsTo document {schema} {node} ∧ fragments? node = some fragments ∧
        UnfoldsTo document (partsOf node fragments) parts := by
  induction h with
  | refl => exact .inl ⟨schema, .refl, le_refl _⟩
  | tail _ hstep ih =>
    rcases ih with ⟨node, hnode, hle⟩ | ⟨node, fragments, hnode, hfragments, hparts⟩
    · have hempty : ∀ {first : Json} {others : Multiset Json}, first ::ₘ others ≤ {node} →
          first = node ∧ others = 0 := by
        intro first others hcons
        have hcard := Multiset.card_le_card hcons
        rw [Multiset.card_cons, Multiset.card_singleton] at hcard
        have hmem := Multiset.mem_of_le hcons (Multiset.mem_cons_self first others)
        exact ⟨Multiset.mem_singleton.1 hmem, Multiset.card_eq_zero.1 (by omega)⟩
      cases hstep with
      | follow href htarget =>
        obtain ⟨rfl, rfl⟩ := hempty hle
        exact .inl ⟨_, hnode.tail (.follow href htarget), le_refl _⟩
      | @split _ _ fragments hfragments =>
        obtain ⟨rfl, rfl⟩ := hempty hle
        rw [Multiset.add_zero]
        exact .inr ⟨_, fragments, hnode, hfragments, .refl⟩
      | drop => exact .inl ⟨node, hnode, (Multiset.le_cons_self _ _).trans hle⟩
    · exact .inr ⟨node, fragments, hnode, hfragments, hparts.tail hstep⟩

end

/-! ## Properties of merged schemas -/

/-- The schemas that merged schemas have for a property, or some of them. -/
def Collects (document : Json) (schemas : Multiset Json) (name : String) (collected : Multiset Json) : Prop :=
  collected ≠ 0 ∧ ∃ parts, UnfoldsTo document schemas parts ∧ collected ≤ parts.filterMap (property? name)

/-- A node stands in one of some schemas, or is reached from what does. -/
def Below (document : Json) (schemas : Multiset Json) (node : Json) : Prop :=
  ∃ schema ∈ schemas, TransGen (NodeStep document) schema node

/-- Schemas that the walk merges: compositions, what they are made of and refer to, and properties of these. -/
inductive Merged (document : Json) : Json → Prop where
  | composition {node : Json} (hreached : ReflTransGen (NodeStep document) document node)
    (h : (fragments? node).isSome = true) : Merged document node
  | part {node part : Json} {fragments : List Json} (hnode : Merged document node)
    (h : fragments? node = some fragments) (hmem : part ∈ partsOf node fragments) : Merged document part
  | target {node target : Json} (hnode : Merged document node) (h : Follows document node target) :
    Merged document target
  | property {node value : Json} {name : String} (hnode : Merged document node)
    (hdata : isDataKeyword name = false) (h : property? name node = some value) : Merged document value

/-- Schemas that all are merged somewhere. -/
def Grounded (document : Json) (schemas : Multiset Json) : Prop := ∀ schema ∈ schemas, Merged document schema

/-- From two schemas that are merged to two schemas of one property, which are merged then. -/
def PairStep (document : Json) (given both : Multiset Json) : Prop :=
  Multiset.card both = 2 ∧ ∃ name, isDataKeyword name = false ∧ Collects document given name both

/-- Two schemas that are merged: parts of a composition, or the schemas of a property of both. -/
inductive Joined (document : Json) : Multiset Json → Prop where
  | parts {schema : Json} {fragments : List Json} {both : Multiset Json}
    (hreached : ReflTransGen (NodeStep document) document schema) (h : fragments? schema = some fragments)
    (hboth : both ≤ partsOf schema fragments) (hcard : Multiset.card both = 2) : Joined document both
  | step {given both : Multiset Json} (h : Joined document given) (hstep : PairStep document given both) :
    Joined document both

section

variable {document node : Json} {schemas parts collected both : Multiset Json} {name : String}

theorem exists_le_of_le_filterMap {α β : Type} {f : α → Option β} {items : Multiset α} {part : Multiset β}
    (h : part ≤ items.filterMap f) :
    ∃ given ≤ items, given.filterMap f = part ∧ Multiset.card given = Multiset.card part := by
  induction items using Multiset.induction generalizing part with
  | empty =>
    obtain rfl := Multiset.le_zero.1 h
    exact ⟨0, le_refl 0, rfl, rfl⟩
  | cons item items ih =>
    cases hitem : f item with
    | none =>
      rw [Multiset.filterMap_cons_none _ _ hitem] at h
      obtain ⟨given, hgiven, hpart, hcard⟩ := ih h
      exact ⟨given, hgiven.trans (Multiset.le_cons_self _ _), hpart, hcard⟩
    | some result =>
      rw [Multiset.filterMap_cons_some _ _ _ hitem] at h
      obtain ⟨left, hleft, right, hright, rfl⟩ := exists_add_of_le (show part ≤ {result} + _ from h)
      obtain ⟨given, hgiven, hpart, hcard⟩ := ih hright
      rcases Multiset.le_singleton.1 hleft with rfl | rfl
      · exact ⟨given, hgiven.trans (Multiset.le_cons_self _ _), by simpa using hpart, by simpa using hcard⟩
      · refine ⟨item ::ₘ given, (Multiset.cons_le_cons_iff _).2 hgiven, ?_, by simp [hcard]⟩
        rw [Multiset.filterMap_cons_some _ _ _ hitem, hpart]
        rfl

theorem Collects.of_unfoldsTo (h : Collects document parts name collected)
    (hunfolds : UnfoldsTo document schemas parts) : Collects document schemas name collected := by
  obtain ⟨hnonempty, rest, hrest, hcollected⟩ := h
  exact ⟨hnonempty, rest, hunfolds.trans hrest, hcollected⟩

theorem Collects.add {more left : Multiset Json} (h : Collects document schemas name collected)
    (hmore : Collects document more name left) :
    Collects document (schemas + more) name (collected + left) := by
  obtain ⟨hnonempty, parts, hparts, hcollected⟩ := h
  obtain ⟨-, rest, hrest, hleft⟩ := hmore
  refine ⟨fun hzero => hnonempty (Multiset.le_zero.1 (hzero ▸ Multiset.le_add_right _ _)), parts + rest,
    hparts.add_both hrest, ?_⟩
  rw [Multiset.filterMap_add]
  exact add_le_add hcollected hleft

theorem Below.of_unfoldsTo (h : Below document parts node) (hunfolds : UnfoldsTo document schemas parts) :
    Below document schemas node := by
  obtain ⟨part, hpart, hreaches⟩ := h
  obtain ⟨schema, hschema, hfirst⟩ := hunfolds.reaches hpart
  exact ⟨schema, hschema, hreaches.trans_right hfirst⟩

theorem Merged.reached (h : Merged document node) : ReflTransGen (NodeStep document) document node := by
  induction h with
  | composition hreached => exact hreached
  | part _ h hmem ih => exact ih.trans (transGen_of_mem_partsOf h hmem).to_reflTransGen
  | target _ h ih => exact ih.tail h.nodeStep
  | property _ hdata h ih => exact ih.trans (transGen_of_property? h hdata).to_reflTransGen

theorem Merged.follows {other : Json} (h : Merged document node)
    (hfollows : ReflTransGen (Follows document) node other) : Merged document other := by
  induction hfollows with
  | refl => exact h
  | tail _ hstep ih => exact .target ih hstep

theorem Grounded.single (h : Merged document node) : Grounded document {node} := by
  intro other hother
  rwa [Multiset.mem_singleton.1 hother]

theorem Grounded.unfoldsTo (h : Grounded document schemas) (hunfolds : UnfoldsTo document schemas parts) :
    Grounded document parts := by
  induction hunfolds with
  | refl => exact h
  | tail _ hstep ih =>
    intro node hnode
    rcases hstep.mem_cases hnode with hmem | ⟨schema, hschema, hfollows | ⟨fragments, hfragments, hpart⟩⟩
    · exact ih node hmem
    · exact .target (ih schema hschema) hfollows
    · exact .part (ih schema hschema) hfragments hpart

theorem Grounded.below (h : Grounded document schemas) (hbelow : Below document schemas node) :
    ReflTransGen (NodeStep document) document node := by
  obtain ⟨schema, hschema, hreaches⟩ := hbelow
  exact (h schema hschema).reached.trans hreaches.to_reflTransGen

theorem Grounded.collects (h : Grounded document schemas) (hdata : isDataKeyword name = false)
    (hcollects : Collects document schemas name collected) : Grounded document collected := by
  obtain ⟨-, parts, hparts, hcollected⟩ := hcollects
  intro node hnode
  obtain ⟨part, hpart, hproperty⟩ := (Multiset.mem_filterMap _ _).1 (Multiset.mem_of_le hcollected hnode)
  exact .property (h.unfoldsTo hparts part hpart) hdata hproperty

/-- What is collected stands in the schemas. -/
theorem Collects.reaches (h : Collects document schemas name collected) (hdata : isDataKeyword name = false)
    (hmem : node ∈ collected) : Below document schemas node := by
  obtain ⟨-, parts, hparts, hcollected⟩ := h
  obtain ⟨part, hpart, hproperty⟩ := (Multiset.mem_filterMap _ _).1 (Multiset.mem_of_le hcollected hmem)
  exact Below.of_unfoldsTo ⟨part, hpart, transGen_of_property? hproperty hdata⟩ hparts

/-- Two of the schemas that are collected come from two schemas, or from the parts of a composition. -/
theorem Collects.pair (h : Collects document schemas name collected) (hdata : isDataKeyword name = false)
    (hboth : both ≤ collected) (hcard : Multiset.card both = 2) :
    (∃ given ≤ schemas, Multiset.card given = 2 ∧ PairStep document given both) ∨
      ∃ schema ∈ schemas, ∃ node fragments, UnfoldsTo document {schema} {node} ∧
        fragments? node = some fragments ∧ ∃ given ≤ partsOf node fragments, Multiset.card given = 2 ∧
          PairStep document given both := by
  obtain ⟨-, parts, hparts, hcollected⟩ := h
  obtain ⟨first, hfirst, hproperty, hsame⟩ := exists_le_of_le_filterMap (hboth.trans hcollected)
  have hstep : ∀ {given}, UnfoldsTo document given first → PairStep document given both := by
    intro given hgiven
    refine ⟨hcard, name, hdata, fun hzero => ?_, first, hgiven, hproperty.ge⟩
    rw [hzero] at hcard
    cases hcard
  rcases hparts.pair hfirst (hsame.trans hcard) with ⟨given, hgiven, htwo, hunfolds⟩ |
    ⟨schema, hschema, node, fragments, hnode, hfragments, given, hgiven, htwo, hunfolds⟩
  · exact .inl ⟨given, hgiven, htwo, hstep hunfolds⟩
  · exact .inr ⟨schema, hschema, node, fragments, hnode, hfragments, given, hgiven, htwo, hstep hunfolds⟩

theorem PairStep.of_unfoldsTo {given : Multiset Json} (h : PairStep document given both)
    (hunfolds : UnfoldsTo document schemas given) : PairStep document schemas both := by
  obtain ⟨hcard, name, hdata, hcollects⟩ := h
  exact ⟨hcard, name, hdata, hcollects.of_unfoldsTo hunfolds⟩

/-- Where there are two schemas at least, two come from two of them: the parts of a composition come from it
and any other. -/
theorem Collects.pair_of_two (h : Collects document schemas name collected) (hdata : isDataKeyword name = false)
    (hboth : both ≤ collected) (hcard : Multiset.card both = 2) (htwo : 2 ≤ Multiset.card schemas) :
    ∃ given ≤ schemas, Multiset.card given = 2 ∧ PairStep document given both := by
  rcases h.pair hdata hboth hcard with hgiven |
    ⟨schema, hschema, node, fragments, hnode, hfragments, given, hgiven, -, hstep⟩
  · exact hgiven
  · obtain ⟨others, rfl⟩ := Multiset.exists_cons_of_mem hschema
    rw [Multiset.card_cons] at htwo
    obtain ⟨other, hother⟩ := Multiset.card_pos_iff_exists_mem.1 (show 0 < Multiset.card others by omega)
    refine ⟨schema ::ₘ {other}, (Multiset.cons_le_cons_iff _).2 (Multiset.singleton_le.2 hother), rfl,
      hstep.of_unfoldsTo ?_⟩
    have hparts := (hnode.trans (unfoldsTo_parts hfragments)).add {other}
    exact hparts.trans (unfoldsTo_of_le (hgiven.trans (Multiset.le_add_right _ _)))

end

end ApiContract
