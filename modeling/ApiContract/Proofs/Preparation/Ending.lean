import ApiContract.Proofs.Preparation.Deepening
import ApiContract.Proofs.Preparation.Tracing

/-! # Where flattening ends

Flattening ends if no composition reaches itself and if no two schemas that it merges are merged again below
themselves. References by which a schema leads to itself are no matter then: they stay.

* `Made.ends_step`: a schema ends, if all that weighs less does, and what weighs the same and is smaller.
* `Made.ends`, `flattenNode?_ends`: what schemas are merged to, and the document.
* `ComposedOnce`: documents with one composition.
* `forkedDocument_endless`: a document with one that does not reach itself, and is not flattened. -/

set_option autoImplicit false

namespace ApiContract

open Relation

/-! ## What schemas are made of -/

section

variable {document : Json} {schemas layers : Multiset Json} {value : Json}

theorem ordered_of_reached (hordered : document.ordered = true) {node : Json}
    (h : ReflTransGen (NodeStep document) document node) : node.ordered = true := by
  induction h with
  | refl => exact hordered
  | tail _ hstep ih =>
    cases hstep with
    | member hmem _ => exact (Json.ordered_object.1 ih).2 _ hmem
    | item hmem => exact Json.ordered_array.1 ih _ hmem
    | target _ htarget => exact Json.ordered_of_resolve? hordered htarget
    | own hfragments =>
      obtain ⟨fields, rfl, -⟩ := fragments?_eq_some.1 hfragments
      exact ordered_erase ih "allOf"

section

variable {size : Nat} (fits : Multiset Json → Prop)
  (hbelow : ∀ node, Below document layers node → (fragments? node).isSome = true → fits {node})
  (hends : ∀ schemas value, fits schemas → value.ordered = true → Made document .schema schemas value →
    sizeOf value < size → Ends document value)

include hbelow hends

/-- What stands in schemas ends, if the compositions in it do. -/
theorem Made.ends_part (h : Made document .part layers value) (hordered : value.ordered = true)
    (hsize : sizeOf value < size) : Ends document value := by
  induction value using Json.partsInduction with
  | object fields ih =>
    cases h with
    | plain _ hobject _ => exact absurd rfl (hobject fields)
    | part hnode hsome h => exact hends _ _ (hbelow _ hnode hsome) hordered h hsize
    | members _ hfragments h =>
      refine .members hordered hfragments fun name value hvalue hdata => ?_
      have hmem := Fields.mem_of_get? hvalue
      exact ih (name, value) hmem (h name value hvalue hdata) (Json.ordered_of_get? hordered hvalue)
        (Nat.lt_trans (Json.sizeOf_member_lt hmem) hsize)
  | array items ih =>
    refine .array fun item hitem => ?_
    exact ih item hitem (h.items rfl item hitem) (Json.ordered_array.1 hordered item hitem)
      (Nat.lt_trans (Json.sizeOf_item_lt hitem) hsize)
  | plain value hobject hlist => exact .plain hobject hlist

/-- What stands under a keyword ends, if the compositions in it do and the schemas of properties. -/
theorem Made.ends_under {key : String} (h : Made document (.under key) layers value)
    (hcollects : ∀ name collected, isDataKeyword name = false → Collects document layers name collected →
      fits collected)
    (hordered : value.ordered = true) (hsize : sizeOf value < size) : Ends document value := by
  by_cases hkey : key = "properties"
  · rw [Role.under, if_pos hkey] at h
    cases h with
    | plain _ hobject hlist => exact .plain hobject hlist
    | list _ hitems => exact (Made.list rfl hitems).ends_part fits hbelow hends hordered hsize
    | members _ hfragments h =>
      refine .members hordered hfragments fun name value hvalue hdata => ?_
      obtain ⟨-, collected, hcollected, hmade⟩ := (h name value hvalue hdata).exists_collected
      exact hends _ _ (hcollects name collected hdata hcollected) (Json.ordered_of_get? hordered hvalue) hmade
        (Nat.lt_trans (Json.sizeOf_member_lt (Fields.mem_of_get? hvalue)) hsize)
  · rw [Role.under, if_neg hkey] at h
    exact h.ends_part fits hbelow hends hordered hsize

end

section

variable (hdocument : Unrepeating document) (hplain : PlainProperties document)
  (hordered : document.ordered = true) (hplaced : Placed document schemas)
  (hlighter : ∀ others other, Placed document others → weight document others < weight document schemas →
    other.ordered = true → Made document .schema others other → Ends document other)
  (hsmaller : ∀ others other, Placed document others → weight document others ≤ weight document schemas →
    other.ordered = true → Made document .schema others other → sizeOf other < sizeOf value →
      Ends document other)

include hplaced in
theorem placed_below {node : Json} (hunfolds : UnfoldsTo document schemas layers)
    (hnode : Below document layers node) (hcomposition : (fragments? node).isSome = true) :
    Placed document {node} ∧ weight document {node} ≤ weight document schemas := by
  have hall := hnode.of_unfoldsTo hunfolds
  have hreached := hplaced.merged.below hall
  obtain ⟨schema, hmem, hreaches⟩ := hall
  exact ⟨.single (.composition hreached hcomposition), weight_single_le hplaced hmem hreaches.to_reflTransGen⟩

include hdocument hplaced hsmaller in
/-- What stands in the layers of a schema. -/
theorem ends_kept {key : String} {part : Json} (hunfolds : UnfoldsTo document schemas layers)
    (h : Made document (.under key) layers part) (hpart : part.ordered = true)
    (hsize : sizeOf part < sizeOf value) : Ends document part := by
  refine h.ends_under (fun others => Placed document others ∧ weight document others ≤ weight document schemas)
    ?_ ?_ ?_ hpart hsize
  · exact fun node => placed_below hplaced hunfolds
  · exact fun others other hfits hother hmade hlt => hsmaller others other hfits.1 hfits.2 hother hmade hlt
  · intro name collected hdata hcollected
    have hall := hcollected.of_unfoldsTo hunfolds
    exact ⟨hplaced.collects hdata hall, hall.weight_le hdocument hplaced hdata⟩

include hdocument hplaced hlighter in
/-- What stands in the layers that a composition has become. -/
theorem ends_merged {key : String} {part : Json} (hunfolds : UnfoldsTo document schemas layers)
    (hproper : Proper document schemas layers) (h : Made document (.under key) layers part)
    (hpart : part.ordered = true) : Ends document part := by
  refine h.ends_under (fun others => Placed document others ∧ weight document others < weight document schemas)
    ?_ ?_ ?_ hpart (Nat.lt_succ_self _)
  · intro node hnode hcomposition
    have hsingle := (placed_below hplaced hunfolds hnode hcomposition).1
    obtain ⟨layer, hlayer, hreaches⟩ := hnode
    exact ⟨hsingle, hproper.weight_single_lt hdocument hplaced hunfolds hlayer hreaches.to_reflTransGen⟩
  · exact fun others other hfits hother hmade _ => hlighter others other hfits.1 hfits.2 hother hmade
  · intro name collected hdata hcollected
    exact ⟨hplaced.collects hdata (hcollected.of_unfoldsTo hunfolds),
      hproper.weight_collected_lt hdocument hplaced hunfolds hdata hcollected⟩

include hplaced in
theorem placed_part {part : Multiset Json} (hunfolds : UnfoldsTo document schemas part)
    (hsmall : part ≤ schemas ∨ Multiset.card part = 1) :
    Placed document part ∧ weight document part ≤ weight document schemas := by
  rcases hsmall with hle | hone
  · exact ⟨hplaced.of_le hle, weight_le_of_le hplaced hle⟩
  · obtain ⟨node, rfl⟩ := Multiset.card_eq_one.1 hone
    obtain ⟨schema, hmem, hreaches⟩ := hunfolds.reaches (Multiset.mem_singleton_self node)
    exact ⟨.single (hplaced.merged.unfoldsTo hunfolds node (Multiset.mem_singleton_self node)),
      weight_single_le hplaced hmem hreaches⟩

include hdocument hplain hordered hplaced hlighter hsmaller in
/-- Fragments that wait to be merged. -/
theorem ends_fragments {fragments : List Json} (hvalue : value.ordered = true)
    (h : Made document .schema schemas value) (hfragments : fragments? value = some fragments) :
    ∀ fragment ∈ fragments, Ends document fragment ∧ Resolves document fragment := by
  obtain ⟨fields, rfl, hget⟩ := fragments?_eq_some.1 hfragments
  obtain ⟨layers, parts, hunfolds, hlist, hproper, hsmall, hparts, -⟩ := h.exists_parts
  rw [hfragments, Option.getD_some] at hlist
  subst hlist
  intro fragment hfragment
  obtain ⟨part, hpart, rfl⟩ := List.mem_map.1 hfragment
  obtain ⟨hpartPlaced, hweight⟩ := placed_part hplaced (unfoldsTo_part hpart hunfolds) (hsmall part hpart)
  have hmade := hparts part hpart
  have hpartEnds : Ends document part.2 := by
    refine hsmaller _ _ hpartPlaced hweight ?_ hmade ?_
    · exact Json.ordered_array.1 (Json.ordered_of_get? hvalue hget) part.2 hfragment
    · exact Nat.lt_trans (Json.sizeOf_item_lt hfragment) (Json.sizeOf_member_lt (Fields.mem_of_get? hget))
  refine ⟨hpartEnds, .of_ends (fun _ => hpartEnds) fun node hnode => ?_⟩
  -- What the fragment refers to is reached from a part, so that it weighs less by itself.
  obtain ⟨target, hfirst, hrest⟩ := TransGen.head'_iff.1 hnode
  have hunfoldsPart := hmade.follow hfirst
  obtain ⟨schema, hschema, hreaches⟩ := hunfoldsPart.reaches (Multiset.mem_singleton_self target)
  have hlayer : schema ∈ layers + (parts.map Prod.fst).sum :=
    Multiset.mem_of_le ((le_sum_of_mem hpart).trans (Multiset.le_add_left _ _)) hschema
  have hnodeReaches := hreaches.trans (hrest.lift id fun _ _ => Follows.nodeStep)
  have hmerged : Merged document node :=
    (hpartPlaced.merged.unfoldsTo hunfoldsPart target (Multiset.mem_singleton_self target)).follows hrest
  have hlt := (hproper (by rw [hfragments]; rfl)).weight_single_lt hdocument hplaced hunfolds hlayer
    hnodeReaches
  exact hlighter _ _ (.single hmerged) hlt (ordered_of_reached hordered hmerged.reached)
    (made_of_merged hplain hmerged)

include hdocument hplain hordered hplaced hlighter hsmaller in
/-- What stands in a schema whose composition is not merged. -/
theorem ends_unmerged {key : String} {part : Json} (hvalue : value.ordered = true)
    (h : Made document .schema schemas value) (hget : value.get? key = some part)
    (hdata : isDataKeyword key = false) : Ends document part := by
  cases value with
  | object fields =>
    by_cases hwaits : key = "allOf" → fragments? (.object fields) = none
    · obtain ⟨layers, parts, hunfolds, -, -, -, -, hkeywords⟩ := h.exists_parts
      have hlayers : UnfoldsTo document schemas layers :=
        hunfolds.trans (unfoldsTo_of_le (Multiset.le_add_right _ _))
      exact ends_kept hdocument hplaced hsmaller hlayers (hkeywords.keyword hget hdata hwaits)
        (Json.ordered_of_get? hvalue hget) (Json.sizeOf_get?_lt hget)
    · rw [Classical.not_imp] at hwaits
      obtain ⟨rfl, hsome⟩ := hwaits
      obtain ⟨fragments, hfragments⟩ := Option.ne_none_iff_exists'.1 hsome
      have hpart : part = .array fragments := by
        obtain ⟨_, ⟨⟩, hlist⟩ := fragments?_eq_some.1 hfragments
        exact Option.some.inj (hget.symm.trans hlist)
      rw [hpart]
      exact .array fun fragment hfragment =>
        (ends_fragments hdocument hplain hordered hplaced hlighter hsmaller hvalue h hfragments fragment
          hfragment).1
  | _ => cases hget

include hdocument hplain hordered hplaced hlighter hsmaller in
/-- A schema ends, if all that weighs less does, and what weighs no more and is smaller. -/
theorem Made.ends_step (hvalue : value.ordered = true) (h : Made document .schema schemas value) :
    Ends document value := by
  cases value using Json.partsInduction with
  | object fields _ =>
    refine .object (fun fragments hfragments fragment hfragment => ?_)
      fun depth followed keywords hcomposed => ?_
    · exact (ends_fragments hdocument hplain hordered hplaced hlighter hsmaller hvalue h hfragments fragment
        hfragment).2
    · have hcomposedOrdered := ordered_of_composedFields? hordered hvalue hcomposed
      obtain ⟨hkeys, hvalues⟩ := Json.ordered_object.1 hcomposedOrdered
      intro field hfield hdata
      have hget := Fields.get?_of_mem hkeys hfield
      rcases h.composedFields? hordered (traces hplain hordered depth).2 hplaced.merged hvalue hcomposed with
        rfl | ⟨hnone, layers, hlayers, hproper, hmade⟩
      · exact ends_unmerged hdocument hplain hordered hplaced hlighter hsmaller hvalue h hget hdata
      · exact ends_merged hdocument hplaced hlighter hlayers hproper (hmade.keyword hget hdata fun _ => hnone)
          (hvalues field hfield)
  | array items _ =>
    refine .array fun item hitem => ?_
    refine (h.items rfl item hitem).ends_part
      (fun others => Placed document others ∧ weight document others ≤ weight document schemas) ?_ ?_
      (Json.ordered_array.1 hvalue item hitem) (Json.sizeOf_item_lt hitem)
    · exact fun node => placed_below hplaced .refl
    · exact fun others other hfits hother hmade hlt => hsmaller others other hfits.1 hfits.2 hother hmade hlt
  | plain value hobject hlist => exact .plain hobject hlist

end

/-- What schemas of the document are merged to ends: by the weight of the schemas, and then by the size. -/
theorem Made.ends (hdocument : Unrepeating document) (hplain : PlainProperties document)
    (hordered : document.ordered = true) (hplaced : Placed document schemas) (hvalue : value.ordered = true)
    (h : Made document .schema schemas value) : Ends document value := by
  induction hweight : weight document schemas using WellFoundedLT.induction generalizing schemas value with
  | ind _ ihweight =>
    subst hweight
    induction hsize : sizeOf value using Nat.strong_induction_on generalizing schemas value with
    | _ size ihsize =>
      subst hsize
      have hlighter : ∀ others other, Placed document others →
          weight document others < weight document schemas → other.ordered = true →
            Made document .schema others other → Ends document other :=
        fun others other hothers hlt hother hmade => ihweight _ hlt hothers hother hmade rfl
      refine h.ends_step hdocument hplain hordered hplaced hlighter ?_ hvalue
      intro others other hothers hle hother hmade hlt
      rcases lt_or_eq_of_le hle with hlighterOther | hsame
      · exact hlighter others other hothers hlighterOther hother hmade
      · exact ihsize _ hlt hothers hother hmade (hsame ▸ ihweight) rfl

end

/-! ## One composition -/

/-- The nodes one step on. -/
def nextNodes (document : Json) : Json → List Json
  | .object fields =>
    ((fields.filter fun field => !isDataKeyword field.1).map Prod.snd) ++
      ((Json.object fields).reference?.bind document.resolve?).toList ++
        ((fragments? (.object fields)).map fun _ => ownPart (.object fields)).toList
  | .array items => items
  | _ => []

section

variable {document node next other : Json}

theorem NodeStep.mem_nextNodes (h : NodeStep document node next) : next ∈ nextNodes document node := by
  cases h with
  | member hmem hdata =>
    have hkept : (_, next) ∈ List.filter (fun field => !isDataKeyword field.1) _ :=
      List.mem_filter.2 ⟨hmem, by simpa using hdata⟩
    exact List.mem_append_left _ (List.mem_append_left _ (List.mem_map_of_mem hkept))
  | item hmem => exact hmem
  | target href htarget =>
    cases node with
    | object fields =>
      refine List.mem_append_left _ (List.mem_append_right _ ?_)
      rw [href, Option.bind_some, htarget]
      exact List.mem_singleton_self next
    | _ => cases href
  | own h =>
    obtain ⟨fields, rfl, -⟩ := fragments?_eq_some.1 h
    refine List.mem_append_right _ ?_
    rw [h]
    exact List.mem_singleton_self _

theorem mem_of_reaches {nodes : List Json}
    (hclosed : ∀ node ∈ nodes, ∀ next ∈ nextNodes document node, next ∈ nodes) (hnode : node ∈ nodes)
    (h : ReflTransGen (NodeStep document) node other) : other ∈ nodes := by
  induction h with
  | refl => exact hnode
  | tail _ hstep ih => exact hclosed _ ih _ hstep.mem_nextNodes

/-- A document with one composition, with nodes below it that hold none. -/
structure ComposedOnce (document composition : Json) (below : List Json) : Prop where
  root : ∀ next ∈ nextNodes document document, next = composition ∨ next ∈ below
  first : ∀ next ∈ nextNodes document composition, next ∈ below
  closed : ∀ node ∈ below, ∀ next ∈ nextNodes document node, next ∈ below
  plain : ∀ node ∈ document :: below, fragments? node = none
  composes : (fragments? composition).isSome = true

namespace ComposedOnce

variable {composition : Json} {below : List Json} (h : ComposedOnce document composition below)

include h

theorem nodes (hnode : ReflTransGen (NodeStep document) document node) :
    node = document ∨ node = composition ∨ node ∈ below := by
  induction hnode with
  | refl => exact .inl rfl
  | tail _ hstep ih =>
    rcases ih with rfl | rfl | hmem
    · exact .inr (h.root _ hstep.mem_nextNodes)
    · exact .inr (.inr (h.first _ hstep.mem_nextNodes))
    · exact .inr (.inr (h.closed _ hmem _ hstep.mem_nextNodes))

theorem eq_composition (hnode : ReflTransGen (NodeStep document) document node)
    (hfragments : (fragments? node).isSome = true) : node = composition := by
  rcases h.nodes hnode with rfl | rfl | hmem
  · rw [h.plain _ List.mem_cons_self] at hfragments
    cases hfragments
  · rfl
  · rw [h.plain node (List.mem_cons_of_mem _ hmem)] at hfragments
    cases hfragments

theorem not_reaches (hnode : ReflTransGen (NodeStep document) document node)
    (hfragments : (fragments? node).isSome = true) : ¬ TransGen (NodeStep document) node node := by
  obtain rfl := h.eq_composition hnode hfragments
  intro hagain
  obtain ⟨next, hstep, hreaches⟩ := TransGen.head'_iff.1 hagain
  have hmem := mem_of_reaches h.closed (h.first next hstep.mem_nextNodes) hreaches
  rw [h.plain node (List.mem_cons_of_mem _ hmem)] at hfragments
  cases hfragments

end ComposedOnce

end

/-! ## Documents -/

/-- Flattening a document ends, if no composition of it reaches itself and no two schemas that are merged are
merged again below themselves. -/
theorem flattenNode?_ends {document : Json} (hordered : document.ordered = true)
    (hplain : PlainProperties document) (hdocument : Unrepeating document) :
    ∃ depth flat, ∀ more, depth ≤ more → flattenNode? document more [] document = some flat := by
  have hends : Ends document document := by
    cases hfragments : fragments? document with
    | none =>
      have hmade := made_of_plain hplain .refl hfragments
      refine hmade.ends_part (Placed document) (fun node hnode hcomposition => ?_)
        (fun _ _ hplaced hvalue h _ => h.ends hdocument hplain hordered hplaced hvalue) hordered
        (Nat.lt_succ_self _)
      obtain ⟨root, hroot, hreaches⟩ := hnode
      rw [Multiset.mem_singleton.1 hroot] at hreaches
      exact .single (.composition hreaches.to_reflTransGen hcomposition)
    | some fragments =>
      have hmerged : Merged document document := .composition .refl (by rw [hfragments]; rfl)
      exact (made_of_merged hplain hmerged).ends hdocument hplain hordered (.single hmerged) hordered
  obtain ⟨depth, flat, hflat⟩ := hends []
  exact ⟨depth, flat, fun more hle => flattenNode?_mono hle hflat⟩

def linkSchema : Json := .object [("$ref", .string "#/node")]

def nodeSchema : Json := .object [("properties", .object [("next", linkSchema)])]

def typedSchema : Json := .object [("type", .string "object")]

def typedNode : Json := .object [("allOf", .array [linkSchema]), ("type", .string "object")]

/-- A composition of a schema that is recursive through a property. -/
def linkedDocument : Json := .object [("node", nodeSchema), ("typed", typedNode)]

def belowTypedNode : List Json :=
  [.array [linkSchema], .string "object", typedSchema, linkSchema, .string "#/node", nodeSchema,
    .object [("next", linkSchema)]]

theorem linkedDocument_composed : ComposedOnce linkedDocument typedNode belowTypedNode where
  root := by
    have hroot : nextNodes linkedDocument linkedDocument = [nodeSchema, typedNode] := rfl
    simp [hroot, belowTypedNode]
  first := by
    have htyped : nextNodes linkedDocument typedNode =
        [.array [linkSchema], .string "object", typedSchema] := rfl
    simp [htyped, belowTypedNode]
  closed := by
    have hlist : nextNodes linkedDocument (.array [linkSchema]) = [linkSchema] := rfl
    have htyped : nextNodes linkedDocument typedSchema = [.string "object"] := rfl
    have hlink : nextNodes linkedDocument linkSchema = [.string "#/node", nodeSchema] := rfl
    have hnode : nextNodes linkedDocument nodeSchema = [.object [("next", linkSchema)]] := rfl
    have hproperties : nextNodes linkedDocument (.object [("next", linkSchema)]) = [linkSchema] := rfl
    have hleaf : ∀ text, nextNodes linkedDocument (.string text) = [] := fun _ => rfl
    simp only [belowTypedNode, List.forall_mem_cons, hlist, htyped, hlink, hnode, hproperties, hleaf]
    simp
  plain := by
    simp only [belowTypedNode, List.forall_mem_cons]
    exact ⟨rfl, rfl, rfl, rfl, rfl, rfl, rfl, rfl, List.forall_mem_nil _⟩
  composes := rfl

theorem linkedDocument_plain : PlainProperties linkedDocument := by
  intro fields properties hnode hproperties
  rcases linkedDocument_composed.nodes hnode.reached with heq | heq | hmem
  · cases heq
    cases hproperties
  · cases heq
    cases hproperties
  · have hstep : NodeStep linkedDocument (.object fields) (.object properties) :=
      .of_get? hproperties (by decide)
    have hproperties := linkedDocument_composed.closed _ hmem _ hstep.mem_nextNodes
    exact linkedDocument_composed.plain _ (List.mem_cons_of_mem _ hproperties)

/-- Whether a schema may be the one with properties. -/
def isUntyped (schema : Json) : Bool := (schema.get? "type").isNone

/-- Schemas that `typedNode` is made of, with properties in one of them at most. -/
structure OneNode (schemas : Multiset Json) : Prop where
  known : ∀ schema ∈ schemas, schema = typedSchema ∨ schema = linkSchema ∨ schema = nodeSchema
  once : schemas.countP (isUntyped ·) ≤ 1

theorem OneNode.of_le {schemas parts : Multiset Json} (h : OneNode schemas) (hle : parts ≤ schemas) :
    OneNode parts where
  known schema hschema := h.known schema (Multiset.mem_of_le hle hschema)
  once := (Multiset.countP_le_of_le _ hle).trans h.once

theorem OneNode.unfoldsTo {schemas parts : Multiset Json} (h : OneNode schemas)
    (hunfolds : UnfoldsTo linkedDocument schemas parts) : OneNode parts := by
  induction hunfolds with
  | refl => exact h
  | tail _ hstep ih =>
    cases hstep with
    | @follow schema target others reference href htarget =>
      rcases ih.known schema (Multiset.mem_cons_self _ _) with rfl | rfl | rfl
      · cases href
      · cases href
        obtain rfl : nodeSchema = target := Option.some.inj htarget
        refine ⟨fun schema hschema => ?_, ?_⟩
        · rcases Multiset.mem_cons.1 hschema with rfl | hmem
          · exact .inr (.inr rfl)
          · exact ih.known schema (Multiset.mem_cons_of_mem hmem)
        · have honce := ih.once
          rw [Multiset.countP_cons_of_pos (p := (isUntyped ·)) _ rfl] at honce
          rwa [Multiset.countP_cons_of_pos (p := (isUntyped ·)) _ rfl]
      · cases href
    | @split schema others fragments hfragments =>
      rcases ih.known schema (Multiset.mem_cons_self _ _) with rfl | rfl | rfl <;> cases hfragments
    | drop schema others => exact ih.of_le (Multiset.le_cons_self _ _)

theorem OneNode.card_properties {schemas : Multiset Json} (name : String)
    (h : ∀ schema ∈ schemas, schema = typedSchema ∨ schema = linkSchema ∨ schema = nodeSchema) :
    Multiset.card (schemas.filterMap (property? name)) ≤ schemas.countP (isUntyped ·) := by
  induction schemas using Multiset.induction with
  | empty => exact le_rfl
  | cons schema rest ih =>
    rw [Multiset.forall_mem_cons] at h
    have hrest := ih h.2
    rw [Multiset.countP_cons]
    cases hproperty : property? name schema with
    | none =>
      rw [Multiset.filterMap_cons_none _ _ hproperty]
      omega
    | some value =>
      have htyped : isUntyped schema = true := by
        rcases h.1 with rfl | rfl | rfl
        · cases hproperty
        · rfl
        · rfl
      rw [Multiset.filterMap_cons_some _ _ _ hproperty, Multiset.card_cons, if_pos htyped]
      omega

theorem OneNode.not_pairStep {given both : Multiset Json} (h : OneNode given) :
    ¬ PairStep linkedDocument given both := by
  rintro ⟨hcard, name, -, -, parts, hparts, hcollected⟩
  have hone := h.unfoldsTo hparts
  have hle := Multiset.card_le_card hcollected
  have hproperties := OneNode.card_properties name hone.known
  have honce := hone.once
  omega

theorem linkedDocument_oneNode {both : Multiset Json} (h : Joined linkedDocument both) : OneNode both := by
  induction h with
  | parts hreached hfragments hboth =>
    obtain rfl := linkedDocument_composed.eq_composition hreached (by rw [hfragments]; rfl)
    cases hfragments
    have hparts : partsOf typedNode [linkSchema] = typedSchema ::ₘ {linkSchema} := rfl
    rw [hparts] at hboth
    refine OneNode.of_le ⟨fun schema hschema => ?_, ?_⟩ hboth
    · rcases Multiset.mem_cons.1 hschema with rfl | hlink
      · exact .inl rfl
      · exact .inr (.inl (Multiset.mem_singleton.1 hlink))
    · rw [Multiset.countP_cons_of_neg (p := (isUntyped ·)) _ (by decide)]
      exact Multiset.countP_le_card _ _
  | step _ hstep ih => exact absurd hstep ih.not_pairStep

theorem linkedDocument_unrepeating : Unrepeating linkedDocument where
  compositions _ := linkedDocument_composed.not_reaches
  pairs both hboth hagain := by
    obtain ⟨next, hstep, -⟩ := TransGen.head'_iff.1 hagain
    exact (linkedDocument_oneNode hboth).not_pairStep hstep

theorem linkedDocument_ends : linkedDocument.ordered = true ∧ PlainProperties linkedDocument ∧
    Unrepeating linkedDocument ∧ ∃ depth flat, ∀ more, depth ≤ more →
      flattenNode? linkedDocument more [] linkedDocument = some flat :=
  ⟨by decide, linkedDocument_plain, linkedDocument_unrepeating,
    flattenNode?_ends (by decide) linkedDocument_plain linkedDocument_unrepeating⟩

/-! ## A document without an end -/

def firstLink : Json := .object [("$ref", .string "#/a")]

def secondLink : Json := .object [("$ref", .string "#/b")]

/-- A composition of two schemas that are recursive through one property. -/
def bothLinks : Json := .object [("allOf", .array [firstLink, secondLink])]

def firstNode : Json := .object [("properties", .object [("p", firstLink)])]

def secondNode : Json := .object [("properties", .object [("p", secondLink)])]

def forkedDocument : Json := .object [("a", firstNode), ("b", secondNode), ("c", bothLinks)]

theorem mergeFields_links :
    mergeFields [("properties", .object [("p", firstLink)])] [("properties", .object [("p", secondLink)])] =
      some [("properties", .object [("p", bothLinks)])] := by
  have hboth : mergeSchemas firstLink secondLink = bothLinks := by
    rw [firstLink, secondLink, mergeSchemas]
    rfl
  have hproperties : mergeProperties [("p", firstLink)] [("p", secondLink)] = [("p", bothLinks)] := by
    rw [mergeProperties, mergeProperties]
    exact congrArg (Fields.insert "p" · [("p", firstLink)]) hboth
  rw [mergeFields_properties rfl, hproperties, mergeFields]
  rfl

theorem mergeFields_firstLink :
    mergeFields [] [("properties", .object [("p", firstLink)])] =
      some [("properties", .object [("p", firstLink)])] := by
  rw [mergeFields_properties rfl, mergeProperties, mergeProperties, mergeFields]
  rfl

/-- The composition is made again, for the property. -/
theorem composedFields?_bothLinks :
    composedFields? forkedDocument 7 [] [("allOf", .array [firstLink, secondLink])] =
      some [("properties", .object [("p", bothLinks)])] := by
  have hfold : composedFields? forkedDocument 7 [] [("allOf", .array [firstLink, secondLink])] =
      ([firstLink, secondLink].foldlM (mergeFragment? forkedDocument 7 []) (some [])).map
        fun flat => flat.getD [("allOf", .array [firstLink, secondLink])] := rfl
  have hfirst : mergeFragment? forkedDocument 7 [] (some []) firstLink =
      some (some [("properties", .object [("p", firstLink)])]) :=
    congrArg some mergeFields_firstLink
  have hsecond : mergeFragment? forkedDocument 7 [] (some [("properties", .object [("p", firstLink)])])
      secondLink = some (some [("properties", .object [("p", bothLinks)])]) :=
    congrArg some mergeFields_links
  rw [hfold, List.foldlM_cons, hfirst, Option.bind_eq_bind, Option.bind_some, List.foldlM_cons, hsecond]
  rfl

theorem flattenNode?_bothLinks (depth : Nat) : flattenNode? forkedDocument depth [] bothLinks = none := by
  induction depth using Nat.strong_induction_on with
  | _ depth ih =>
    cases depth with
    | zero => rfl
    | succ depth =>
      cases hkeywords : composedFields? forkedDocument depth [] [("allOf", .array [firstLink, secondLink])] with
      | none =>
        rw [bothLinks, flattenNode?_object, hkeywords]
        rfl
      | some keywords =>
        obtain rfl := composedFields?_unique hkeywords composedFields?_bothLinks
        have hget : Fields.get? "properties" [("properties", .object [("p", bothLinks)])] =
            some (.object [("p", bothLinks)]) := rfl
        refine flattenNode?_eq_none hkeywords hget (by decide) ?_
        cases depth with
        | zero => rfl
        | succ depth =>
          have hget : Fields.get? "p" [("p", bothLinks)] = some bothLinks := rfl
          exact flattenNode?_eq_none rfl hget (by decide) (ih depth (by omega))

def belowBothLinks : List Json :=
  [.array [firstLink, secondLink], .object [], firstLink, .string "#/a", firstNode, .object [("p", firstLink)],
    secondLink, .string "#/b", secondNode, .object [("p", secondLink)]]

theorem forkedDocument_composed : ComposedOnce forkedDocument bothLinks belowBothLinks where
  root := by
    have hroot : nextNodes forkedDocument forkedDocument = [firstNode, secondNode, bothLinks] := rfl
    simp [hroot, belowBothLinks]
  first := by
    have hboth : nextNodes forkedDocument bothLinks = [.array [firstLink, secondLink], .object []] := rfl
    simp [hboth, belowBothLinks]
  closed := by
    have hlist : nextNodes forkedDocument (.array [firstLink, secondLink]) = [firstLink, secondLink] := rfl
    have hempty : nextNodes forkedDocument (.object []) = [] := rfl
    have hfirst : nextNodes forkedDocument firstLink = [.string "#/a", firstNode] := rfl
    have hfirstNode : nextNodes forkedDocument firstNode = [.object [("p", firstLink)]] := rfl
    have hfirstMap : nextNodes forkedDocument (.object [("p", firstLink)]) = [firstLink] := rfl
    have hsecond : nextNodes forkedDocument secondLink = [.string "#/b", secondNode] := rfl
    have hsecondNode : nextNodes forkedDocument secondNode = [.object [("p", secondLink)]] := rfl
    have hsecondMap : nextNodes forkedDocument (.object [("p", secondLink)]) = [secondLink] := rfl
    have hleaf : ∀ text, nextNodes forkedDocument (.string text) = [] := fun _ => rfl
    simp only [belowBothLinks, List.forall_mem_cons, hlist, hempty, hfirst, hfirstNode, hfirstMap, hsecond,
      hsecondNode, hsecondMap, hleaf]
    simp
  plain := by
    simp only [belowBothLinks, List.forall_mem_cons]
    exact ⟨rfl, rfl, rfl, rfl, rfl, rfl, rfl, rfl, rfl, rfl, rfl, List.forall_mem_nil _⟩
  composes := rfl

/-- No composition of the document reaches itself, and still it is not flattened at any depth. -/
theorem forkedDocument_endless :
    (∀ schema, ReflTransGen (NodeStep forkedDocument) forkedDocument schema →
      (fragments? schema).isSome = true → ¬ TransGen (NodeStep forkedDocument) schema schema) ∧
    ∀ depth, flattenNode? forkedDocument depth [] forkedDocument = none := by
  refine ⟨fun _ => forkedDocument_composed.not_reaches, fun depth => ?_⟩
  cases depth with
  | zero => rfl
  | succ depth =>
    have hget : Fields.get? "c" [("a", firstNode), ("b", secondNode), ("c", bothLinks)] = some bothLinks := rfl
    exact flattenNode?_eq_none rfl hget (by decide) (flattenNode?_bothLinks depth)

end ApiContract
