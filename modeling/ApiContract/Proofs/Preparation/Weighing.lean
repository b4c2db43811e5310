import ApiContract.Proofs.Preparation.Reaching
import Mathlib.Data.Multiset.Lattice
import Mathlib.Order.Lattice.Nat
import Mathlib.Data.Prod.Lex

/-! # The weight of merged schemas

A walk that merges schemas ends if they get less on the way. What is less is the number of compositions that
a schema reaches, or else the number of times that two schemas are merged below two of them.

* `Unrepeating`: compositions do not reach themselves, and what is merged is not merged again below itself.
* `Placed`: schemas of the document, any two of them merged by the walk.
* `weight`: how much merged schemas have below them.
* `Proper`: schemas that merging leaves with less; `Proper.weight_lt` and its kin. -/

set_option autoImplicit false

namespace ApiContract

open Relation

/-- No composition of a document is reached again from itself, and no two schemas that are merged are merged
again below themselves. -/
structure Unrepeating (document : Json) : Prop where
  compositions : ∀ schema, ReflTransGen (NodeStep document) document schema →
    (fragments? schema).isSome = true → ¬ TransGen (NodeStep document) schema schema
  pairs : ∀ both, Joined document both → ¬ TransGen (PairStep document) both both

/-- Schemas of a document, any two of which the walk merges. -/
structure Placed (document : Json) (schemas : Multiset Json) : Prop where
  merged : Grounded document schemas
  joined : ∀ both ≤ schemas, Multiset.card both = 2 → Joined document both

section

variable {document schema node : Json} {schemas parts collected given both : Multiset Json} {name : String}

namespace Placed

theorem single (h : Merged document schema) : Placed document {schema} where
  merged := .single h
  joined both hboth hcard := by
    have hle := Multiset.card_le_card hboth
    rw [hcard, Multiset.card_singleton] at hle
    omega

theorem of_le (h : Placed document schemas) (hle : parts ≤ schemas) : Placed document parts where
  merged schema hschema := h.merged schema (Multiset.mem_of_le hle hschema)
  joined both hboth := h.joined both (hboth.trans hle)

theorem collects (h : Placed document schemas) (hdata : isDataKeyword name = false)
    (hcollects : Collects document schemas name collected) : Placed document collected where
  merged := h.merged.collects hdata hcollects
  joined both hboth hcard := by
    rcases hcollects.pair hdata hboth hcard with ⟨given, hgiven, htwo, hstep⟩ |
      ⟨schema, hschema, node, fragments, hnode, hfragments, given, hgiven, htwo, hstep⟩
    · exact .step (h.joined given hgiven htwo) hstep
    · obtain ⟨first, hfirst, hreaches⟩ := hnode.reaches (Multiset.mem_singleton_self node)
      rw [Multiset.mem_singleton.1 hfirst] at hreaches
      exact .step (.parts ((h.merged schema hschema).reached.trans hreaches) hfragments hgiven htwo) hstep

end Placed

theorem Joined.reached (h : Joined document both) (hnode : node ∈ both) :
    ReflTransGen (NodeStep document) document node := by
  induction h generalizing node with
  | parts hreached hfragments hboth =>
    exact hreached.trans (transGen_of_mem_partsOf hfragments (Multiset.mem_of_le hboth hnode)).to_reflTransGen
  | step _ hstep ih =>
    obtain ⟨-, name, hdata, hcollects⟩ := hstep
    obtain ⟨schema, hschema, hreaches⟩ := hcollects.reaches hdata hnode
    exact (ih hschema).trans hreaches.to_reflTransGen

theorem Joined.steps (h : Joined document given) (hsteps : TransGen (PairStep document) given both) :
    Joined document both := by
  induction hsteps with
  | single hstep => exact .step h hstep
  | tail _ hstep ih => exact .step ih hstep

/-! ## Numbers -/

/-- The number of compositions that a node reaches. -/
noncomputable def compositionsBelow (document node : Json) : ℕ :=
  Set.ncard {schema | ReflTransGen (NodeStep document) node schema ∧ (fragments? schema).isSome = true}

/-- The number of pairs of schemas that are merged below two schemas. -/
noncomputable def pairsBelow (document : Json) (both : Multiset Json) : ℕ :=
  Set.ncard {other | TransGen (PairStep document) both other}

theorem finite_compositions (h : ReflTransGen (NodeStep document) document node) :
    {schema | ReflTransGen (NodeStep document) node schema ∧ (fragments? schema).isSome = true}.Finite :=
  (finite_reached document).subset fun _ hschema => h.trans hschema.1

theorem finite_pairs (h : Joined document both) : {other | TransGen (PairStep document) both other}.Finite := by
  have hreached := finite_reached document
  refine ((hreached.prod hreached).image fun pair => ({pair.1, pair.2} : Multiset Json)).subset
    fun other hother => ?_
  have hjoined := h.steps hother
  have hcard : Multiset.card other = 2 := by
    cases hother with
    | single hstep => exact hstep.1
    | tail _ hstep => exact hstep.1
  obtain ⟨first, second, rfl⟩ := Multiset.card_eq_two.1 hcard
  exact ⟨(first, second), ⟨hjoined.reached (by simp), hjoined.reached (by simp)⟩, rfl⟩

theorem compositionsBelow_le (hschema : ReflTransGen (NodeStep document) document schema)
    (h : ReflTransGen (NodeStep document) schema node) :
    compositionsBelow document node ≤ compositionsBelow document schema :=
  Set.ncard_le_ncard (fun _ hother => ⟨h.trans hother.1, hother.2⟩) (finite_compositions hschema)

theorem compositionsBelow_lt (hdocument : Unrepeating document) {composition : Json}
    (hschema : ReflTransGen (NodeStep document) document schema)
    (hcomposition : ReflTransGen (NodeStep document) schema composition)
    (hfragments : (fragments? composition).isSome = true)
    (h : TransGen (NodeStep document) composition node) :
    compositionsBelow document node < compositionsBelow document schema := by
  refine Set.ncard_lt_ncard (Set.ssubset_iff_of_subset ?_ |>.2 ⟨composition, ⟨hcomposition, hfragments⟩, ?_⟩)
    (finite_compositions hschema)
  · exact fun _ hother => ⟨hcomposition.trans (h.to_reflTransGen.trans hother.1), hother.2⟩
  · rintro ⟨hagain, -⟩
    exact hdocument.compositions composition (hschema.trans hcomposition) hfragments (h.trans_left hagain)

theorem pairsBelow_lt (hdocument : Unrepeating document) (h : Joined document given)
    (hstep : PairStep document given both) : pairsBelow document both < pairsBelow document given := by
  refine Set.ncard_lt_ncard (Set.ssubset_iff_of_subset ?_ |>.2 ⟨both, .single hstep, ?_⟩) (finite_pairs h)
  · exact fun _ hother => .head hstep hother
  · exact hdocument.pairs both (.step h hstep)

/-! ## The weight -/

/-- The most compositions that one of some schemas reaches. -/
noncomputable def height (document : Json) (schemas : Multiset Json) : ℕ :=
  (schemas.map (compositionsBelow document)).sup

/-- The most pairs that are merged below two of some schemas, and the two; nothing for one schema. -/
noncomputable def spread (document : Json) (schemas : Multiset Json) : ℕ :=
  ((schemas.powersetCard 2).map fun both => pairsBelow document both + 1).sup

noncomputable def weight (document : Json) (schemas : Multiset Json) : ℕ ×ₗ ℕ :=
  toLex (height document schemas, spread document schemas)

theorem compositionsBelow_le_height (h : schema ∈ schemas) :
    compositionsBelow document schema ≤ height document schemas :=
  Multiset.le_sup (Multiset.mem_map_of_mem _ h)

theorem height_le (hplaced : Placed document schemas)
    (h : ∀ node ∈ collected, ∃ schema ∈ schemas, ReflTransGen (NodeStep document) schema node) :
    height document collected ≤ height document schemas := by
  refine Multiset.sup_le.2 fun n hn => ?_
  obtain ⟨node, hnode, rfl⟩ := Multiset.mem_map.1 hn
  obtain ⟨schema, hschema, hreaches⟩ := h node hnode
  exact (compositionsBelow_le (hplaced.merged schema hschema).reached hreaches).trans
    (compositionsBelow_le_height hschema)

/-- All that stands below a composition reaches fewer of them. -/
theorem height_lt (hdocument : Unrepeating document) {composition : Json} (hplaced : Placed document schemas)
    (hschema : schema ∈ schemas) (hcomposition : ReflTransGen (NodeStep document) schema composition)
    (hfragments : (fragments? composition).isSome = true)
    (h : ∀ node ∈ collected, TransGen (NodeStep document) composition node) :
    height document collected < height document schemas := by
  have hreached := (hplaced.merged schema hschema).reached
  have hpositive : 0 < compositionsBelow document schema :=
    Nat.pos_of_ne_zero fun hzero => by
      have hempty := (Set.ncard_eq_zero (finite_compositions hreached)).1 hzero
      exact Set.notMem_empty composition (hempty ▸ ⟨hcomposition, hfragments⟩)
  have hall : height document collected ≤ compositionsBelow document schema - 1 := by
    refine Multiset.sup_le.2 fun n hn => ?_
    obtain ⟨node, hnode, rfl⟩ := Multiset.mem_map.1 hn
    exact Nat.le_sub_one_of_lt (compositionsBelow_lt hdocument hreached hcomposition hfragments (h node hnode))
  have hle : compositionsBelow document schema ≤ height document schemas := compositionsBelow_le_height hschema
  omega

theorem spread_eq_zero (h : Multiset.card schemas < 2) : spread document schemas = 0 := by
  rw [spread, Multiset.powersetCard_eq_empty 2 h]
  rfl

theorem le_spread (hboth : both ≤ schemas) (hcard : Multiset.card both = 2) :
    pairsBelow document both + 1 ≤ spread document schemas :=
  Multiset.le_sup (Multiset.mem_map.2 ⟨both, Multiset.mem_powersetCard.2 ⟨hboth, hcard⟩, rfl⟩)

theorem spread_pos (h : 2 ≤ Multiset.card schemas) : 0 < spread document schemas := by
  obtain ⟨both, hboth⟩ := Multiset.card_pos_iff_exists_mem.1
    (show 0 < Multiset.card (schemas.powersetCard 2) by
      rw [Multiset.card_powersetCard]
      exact Nat.choose_pos h)
  obtain ⟨hle, hcard⟩ := Multiset.mem_powersetCard.1 hboth
  exact Nat.lt_of_lt_of_le (Nat.succ_pos _) (le_spread hle hcard)

theorem spread_mono (h : parts ≤ schemas) : spread document parts ≤ spread document schemas :=
  Multiset.sup_mono (Multiset.map_subset_map (Multiset.subset_of_le (Multiset.powersetCard_mono 2 h)))

/-- Of two schemas at least, fewer pairs are merged below what they have for a property. -/
theorem spread_lt (hdocument : Unrepeating document) (hplaced : Placed document schemas)
    (hdata : isDataKeyword name = false) (hcollects : Collects document schemas name collected)
    (htwo : 2 ≤ Multiset.card schemas) : spread document collected < spread document schemas := by
  have hpositive : 0 < spread document schemas := spread_pos htwo
  have hall : spread document collected ≤ spread document schemas - 1 := by
    refine Multiset.sup_le.2 fun n hn => ?_
    obtain ⟨both, hboth, rfl⟩ := Multiset.mem_map.1 hn
    obtain ⟨hle, hcard⟩ := Multiset.mem_powersetCard.1 hboth
    obtain ⟨given, hgiven, hgivenCard, hstep⟩ := hcollects.pair_of_two hdata hle hcard htwo
    have hlt := pairsBelow_lt hdocument (hplaced.joined given hgiven hgivenCard) hstep
    have hspread : pairsBelow document given + 1 ≤ spread document schemas := le_spread hgiven hgivenCard
    omega
  omega

theorem weight_le_weight (hheight : height document collected ≤ height document schemas)
    (hspread : spread document collected ≤ spread document schemas) :
    weight document collected ≤ weight document schemas := by
  rw [weight, weight, Prod.Lex.toLex_le_toLex]
  rcases Nat.lt_or_eq_of_le hheight with hlt | heq
  · exact .inl hlt
  · exact .inr ⟨heq, hspread⟩

theorem weight_lt_weight (hheight : height document collected ≤ height document schemas)
    (hspread : spread document collected < spread document schemas) :
    weight document collected < weight document schemas := by
  rw [weight, weight, Prod.Lex.toLex_lt_toLex]
  rcases Nat.lt_or_eq_of_le hheight with hlt | heq
  · exact .inl hlt
  · exact .inr ⟨heq, hspread⟩

theorem weight_lt_of_height (h : height document collected < height document schemas) :
    weight document collected < weight document schemas := by
  rw [weight, weight, Prod.Lex.toLex_lt_toLex]
  exact .inl h

/-! ## What weighs no more -/

theorem weight_le_of_le (hplaced : Placed document schemas) (h : parts ≤ schemas) :
    weight document parts ≤ weight document schemas :=
  weight_le_weight (height_le hplaced fun node hnode => ⟨node, Multiset.mem_of_le h hnode, .refl⟩)
    (spread_mono h)

theorem weight_single_le (hplaced : Placed document schemas) (hschema : schema ∈ schemas)
    (h : ReflTransGen (NodeStep document) schema node) : weight document {node} ≤ weight document schemas := by
  refine weight_le_weight (height_le hplaced fun other hother => ⟨schema, hschema, ?_⟩) ?_
  · rwa [Multiset.mem_singleton.1 hother]
  · rw [spread_eq_zero (by simp)]
    exact Nat.zero_le _

/-- What schemas have for one property weighs no more than they do. Of one schema it is one schema, or stands
below a composition. -/
theorem Collects.weight_le (hdocument : Unrepeating document) (hplaced : Placed document schemas)
    (hdata : isDataKeyword name = false) (h : Collects document schemas name collected) :
    weight document collected ≤ weight document schemas := by
  have hheight : height document collected ≤ height document schemas := by
    refine height_le hplaced fun node hnode => ?_
    obtain ⟨schema, hschema, hreaches⟩ := h.reaches hdata hnode
    exact ⟨schema, hschema, hreaches.to_reflTransGen⟩
  by_cases htwo : 2 ≤ Multiset.card schemas
  · exact weight_le_weight hheight (spread_lt hdocument hplaced hdata h htwo).le
  · obtain ⟨hnonempty, parts, hparts, hcollected⟩ := id h
    obtain ⟨node, hnode⟩ := Multiset.exists_mem_of_ne_zero hnonempty
    obtain ⟨schema, hschema, -⟩ := h.reaches hdata hnode
    have hpositive := Multiset.card_pos_iff_exists_mem.2 ⟨schema, hschema⟩
    obtain ⟨only, rfl⟩ := Multiset.card_eq_one.1 (show Multiset.card schemas = 1 by omega)
    rcases hparts.single with ⟨kept, -, hle⟩ | ⟨composition, fragments, hcomposition, hfragments, hrest⟩
    · have hcard : Multiset.card collected < 2 := by
        obtain ⟨given, hgiven, -, hsame⟩ := exists_le_of_le_filterMap hcollected
        have hone := Multiset.card_le_card (hgiven.trans hle)
        rw [Multiset.card_singleton] at hone
        omega
      refine weight_le_weight hheight ?_
      rw [spread_eq_zero hcard]
      exact Nat.zero_le _
    · obtain ⟨first, hfirst, hreaches⟩ := hcomposition.reaches (Multiset.mem_singleton_self composition)
      refine (weight_lt_of_height (height_lt hdocument hplaced hfirst hreaches (by rw [hfragments]; rfl)
        fun node hnode => ?_)).le
      have hcollects : Collects document (partsOf composition fragments) name collected :=
        ⟨hnonempty, parts, hrest, hcollected⟩
      obtain ⟨part, hpart, hbelow⟩ := hcollects.reaches hdata hnode
      exact (transGen_of_mem_partsOf hfragments hpart).trans hbelow

/-! ## What weighs less -/

/-- Schemas that weigh more than what stands below some parts of them: there are several, or the parts stand
below a composition. -/
def Proper (document : Json) (schemas parts : Multiset Json) : Prop :=
  2 ≤ Multiset.card schemas ∨ ∃ schema ∈ schemas, ∃ composition,
    ReflTransGen (NodeStep document) schema composition ∧ (fragments? composition).isSome = true ∧
      ∀ part ∈ parts, TransGen (NodeStep document) composition part

namespace Proper

theorem unfoldsTo {left : Multiset Json} (h : Proper document schemas parts)
    (hunfolds : UnfoldsTo document parts left) : Proper document schemas left := by
  rcases h with htwo | ⟨schema, hschema, composition, hcomposition, hfragments, hparts⟩
  · exact .inl htwo
  · refine .inr ⟨schema, hschema, composition, hcomposition, hfragments, fun node hnode => ?_⟩
    obtain ⟨part, hpart, hreaches⟩ := hunfolds.reaches hnode
    exact (hparts part hpart).trans_left hreaches

theorem weight_lt (hdocument : Unrepeating document) (hplaced : Placed document schemas)
    (h : Proper document schemas parts) (hunfolds : UnfoldsTo document schemas parts)
    (hreaches : ∀ node ∈ collected, ∃ part ∈ parts, ReflTransGen (NodeStep document) part node)
    (hspread : 2 ≤ Multiset.card schemas → spread document collected < spread document schemas) :
    weight document collected < weight document schemas := by
  rcases h with htwo | ⟨schema, hschema, composition, hcomposition, hfragments, hparts⟩
  · refine weight_lt_weight (height_le hplaced fun node hnode => ?_) (hspread htwo)
    obtain ⟨part, hpart, hnode⟩ := hreaches node hnode
    obtain ⟨schema, hschema, hfirst⟩ := hunfolds.reaches hpart
    exact ⟨schema, hschema, hfirst.trans hnode⟩
  · refine weight_lt_of_height (height_lt hdocument hplaced hschema hcomposition hfragments
      fun node hnode => ?_)
    obtain ⟨part, hpart, hnode⟩ := hreaches node hnode
    exact (hparts part hpart).trans_left hnode

/-- Whatever is reached from the parts weighs less, by itself. -/
theorem weight_single_lt (hdocument : Unrepeating document) (hplaced : Placed document schemas)
    (h : Proper document schemas parts) (hunfolds : UnfoldsTo document schemas parts) {part : Json}
    (hpart : part ∈ parts) (hreaches : ReflTransGen (NodeStep document) part node) :
    weight document {node} < weight document schemas := by
  refine h.weight_lt hdocument hplaced hunfolds (fun other hother => ⟨part, hpart, ?_⟩) fun htwo => ?_
  · rwa [Multiset.mem_singleton.1 hother]
  · rw [spread_eq_zero (by simp)]
    exact spread_pos htwo

/-- What the parts have for one property weighs less. -/
theorem weight_collected_lt (hdocument : Unrepeating document) (hplaced : Placed document schemas)
    (h : Proper document schemas parts) (hunfolds : UnfoldsTo document schemas parts)
    (hdata : isDataKeyword name = false) (hcollects : Collects document parts name collected) :
    weight document collected < weight document schemas := by
  refine h.weight_lt hdocument hplaced hunfolds (fun node hnode => ?_) fun htwo => ?_
  · obtain ⟨part, hpart, hreaches⟩ := hcollects.reaches hdata hnode
    exact ⟨part, hpart, hreaches.to_reflTransGen⟩
  · exact spread_lt hdocument hplaced hdata (hcollects.of_unfoldsTo hunfolds) htwo

end Proper

end

end ApiContract
