import ApiContract.Proofs.Preparation.Upholding
import Mathlib.Data.List.Forall2
import Mathlib.Tactic.Tauto

/-! # Schemas in place of others

In a list of schemas that an instance upholds, some may be replaced by others that ask no more.

* `StandsFor`: schemas that may stand in place of others in every list.
* `standsFor_reference`, `standsFor_composition`: a target and its reference, parts and their composition.
* `ShowsIn`, `Replaces`: layers each of which shows in one of others.
* `Replaces.upholds`, `standsFor_of_layers`: it is enough to look at the layers that are replaced. -/

set_option autoImplicit false

namespace ApiContract

/-! ## Lists of schemas -/

/-- Whoever upholds some schemas, among others, upholds the given ones in their place. -/
def StandsFor (document : Json) (depth : Nat) (flat schemas : List Json) : Prop :=
  ∀ before after inst, inst.ordered = true →
    UpheldTo document depth (before ++ flat ++ after) inst →
      UpheldTo document depth (before ++ schemas ++ after) inst

section

variable {document schema : Json} {depth : Nat} {flat schemas middle rest layers : List Json}

theorem StandsFor.refl (schemas : List Json) : StandsFor document depth schemas schemas :=
  fun _ _ _ _ => id

theorem StandsFor.trans (h : StandsFor document depth flat middle)
    (hnext : StandsFor document depth middle schemas) : StandsFor document depth flat schemas :=
  fun before after inst hinst hflat => hnext before after inst hinst (h before after inst hinst hflat)

theorem StandsFor.append {others given : List Json} (h : StandsFor document depth flat schemas)
    (hothers : StandsFor document depth others given) :
    StandsFor document depth (flat ++ others) (schemas ++ given) := by
  intro before after inst hinst hflat
  have hfirst := h before (others ++ after) inst hinst (by simpa only [List.append_assoc] using hflat)
  have hsecond := hothers (before ++ schemas) after inst hinst
    (by simpa only [List.append_assoc] using hfirst)
  simpa only [List.append_assoc] using hsecond

/-- The schemas on their own. -/
theorem StandsFor.upheldTo (h : StandsFor document depth flat schemas) {inst : Json}
    (hinst : inst.ordered = true) (hflat : UpheldTo document depth flat inst) :
    UpheldTo document depth schemas inst := by
  have hsame := h [] [] inst hinst
  simp only [List.nil_append, List.append_nil] at hsame
  exact hsame hflat

/-- Schemas stand for others that have the same layers. -/
theorem standsFor_of_unfolds
    (h : ∀ rest layers, Unfolds document (schemas ++ rest) layers → Unfolds document (flat ++ rest) layers) :
    StandsFor document depth flat schemas := by
  intro before after inst _ hflat
  cases depth with
  | zero => trivial
  | succ depth =>
    intro layers hlayers
    rw [List.append_assoc] at hlayers
    obtain ⟨first, second, rfl, hfirst, hsecond⟩ := exists_unfolds_of_append hlayers
    refine hflat _ ?_
    rw [List.append_assoc]
    exact unfolds_append hfirst (h after second hsecond)

theorem standsFor_of_forall₂ {given : List Json} (hordered : ∀ schema ∈ schemas, schema.ordered = true)
    (h : List.Forall₂ (fun schema other => schema.ordered = true →
      StandsFor document depth [other] [schema]) schemas given) :
    StandsFor document depth given schemas := by
  induction h with
  | nil => exact .refl []
  | cons hhead _ ih =>
    rw [List.forall_mem_cons] at hordered
    exact (hhead hordered.1).append (ih hordered.2)

/-! ## References and compositions -/

theorem unfolds_reference {target : Json} {reference : String} (href : schema.reference? = some reference)
    (htarget : document.resolve? reference = some target) :
    Unfolds document (schema :: rest) layers ↔ Unfolds document (target :: rest) layers := by
  constructor
  · intro h
    cases h with
    | reference hother hfound hrest =>
      cases href.symm.trans hother
      cases htarget.symm.trans hfound
      exact hrest
    | layer hnone _ _ => cases href.symm.trans hnone
  · exact .reference href htarget

/-- A reference and its target stand for each other. -/
theorem standsFor_reference {target : Json} {reference : String}
    (href : schema.reference? = some reference) (htarget : document.resolve? reference = some target) :
    StandsFor document depth [target] [schema] :=
  standsFor_of_unfolds fun _ _ => (unfolds_reference href htarget).1

/-- Two references to the same. -/
theorem standsFor_same_reference {other : Json} {reference : String}
    (href : schema.reference? = some reference) (hother : other.reference? = some reference) :
    StandsFor document depth [other] [schema] := by
  refine standsFor_of_unfolds fun rest layers h => ?_
  cases h with
  | reference hown htarget hrest =>
    cases href.symm.trans hown
    exact .reference hother htarget hrest
  | layer hnone _ _ => cases href.symm.trans hnone

theorem get?_withoutFragments {key : String} (hkey : key ≠ "allOf") :
    (withoutFragments schema).get? key = schema.get? key := by
  cases schema with
  | object fields =>
    rw [withoutFragments, Json.get?, Fields.get?_erase, if_neg hkey.symm]
    rfl
  | _ => rfl

theorem get?_allOf_withoutFragments : (withoutFragments schema).get? "allOf" = none := by
  cases schema with
  | object fields => rw [withoutFragments, Json.get?, Fields.get?_erase, if_pos rfl]
  | _ => rfl

theorem withoutFragments_eq_self (h : schema.get? "allOf" = none) : withoutFragments schema = schema := by
  cases schema with
  | object fields =>
    refine congrArg Json.object (List.filter_eq_self.2 fun field hfield => ?_)
    exact bne_iff_ne.2 (Fields.get?_eq_none_iff.1 h field hfield)
  | _ => rfl

theorem reference?_congr {other : Json} (h : other.get? "$ref" = schema.get? "$ref") :
    other.reference? = schema.reference? := by
  rw [Json.reference?, Json.reference?, Json.getString?, Json.getString?, h]

theorem HasClearMaps.congr {keywords given : Fields} (h : HasClearMaps keywords)
    (hsame : ∀ key, key ≠ "allOf" → given.get? key = keywords.get? key) : HasClearMaps given := by
  intro key hkey entries hentries
  have hne : ∀ key ∈ ["properties", "patternProperties", "dependencies"], key ≠ "allOf" := by decide
  exact h key hkey entries ((hsame key (hne key hkey)).symm.trans hentries)

/-- A schema that is a layer. -/
structure IsLayer (schema : Json) : Prop where
  reference : schema.reference? = none
  fragments : schema.get? "allOf" = none

theorem isLayer_withoutFragments (href : schema.reference? = none) : IsLayer (withoutFragments schema) :=
  ⟨(reference?_congr (get?_withoutFragments (by decide))).trans href, get?_allOf_withoutFragments⟩

theorem IsLayer.conjuncts (h : IsLayer schema) : conjuncts (keywordsOf schema) = [] := by
  rw [ApiContract.conjuncts, ← get?_eq_keywordsOf, h.fragments]
  rfl

theorem unfolds_of_isLayer (h : IsLayer schema) : Unfolds document (schema :: rest) layers ↔
    HasClearMaps (keywordsOf schema) ∧ ∃ further, layers = schema :: further ∧
      Unfolds document rest further := by
  constructor
  · intro hunfolds
    cases hunfolds with
    | reference href _ _ => cases h.reference.symm.trans href
    | layer _ hmaps hrest =>
      rw [h.conjuncts, List.nil_append] at hrest
      exact ⟨hmaps, _, by rw [withoutFragments_eq_self h.fragments], hrest⟩
  · rintro ⟨hmaps, further, rfl, hrest⟩
    have hlayer : Unfolds document (schema :: rest) (withoutFragments schema :: further) :=
      .layer h.reference hmaps (by rwa [h.conjuncts])
    rwa [withoutFragments_eq_self h.fragments] at hlayer

theorem unfolds_of_layers (h : ∀ schema ∈ schemas, IsLayer schema) :
    Unfolds document (schemas ++ rest) layers ↔ (∀ schema ∈ schemas, HasClearMaps (keywordsOf schema)) ∧
      ∃ further, layers = schemas ++ further ∧ Unfolds document rest further := by
  induction schemas generalizing layers with
  | nil => simp
  | cons schema tail ih =>
    rw [List.forall_mem_cons] at h
    rw [List.cons_append, unfolds_of_isLayer h.1, List.forall_mem_cons]
    constructor
    · rintro ⟨hmaps, further, rfl, hfurther⟩
      obtain ⟨htail, last, rfl, hlast⟩ := (ih h.2).1 hfurther
      exact ⟨⟨hmaps, htail⟩, last, rfl, hlast⟩
    · rintro ⟨⟨hmaps, htail⟩, last, rfl, hlast⟩
      exact ⟨hmaps, _, rfl, (ih h.2).2 ⟨htail, last, rfl, hlast⟩⟩

/-- A composition is its own keywords before its fragments. -/
theorem unfolds_composition (href : schema.reference? = none) :
    Unfolds document (schema :: rest) layers ↔
      Unfolds document (withoutFragments schema :: (conjuncts (keywordsOf schema) ++ rest)) layers := by
  have hsame : ∀ key, key ≠ "allOf" → Fields.get? key (keywordsOf (withoutFragments schema)) =
      Fields.get? key (keywordsOf schema) := by
    intro key hkey
    rw [← get?_eq_keywordsOf, ← get?_eq_keywordsOf, get?_withoutFragments hkey]
  rw [unfolds_of_isLayer (isLayer_withoutFragments href)]
  constructor
  · intro h
    cases h with
    | reference hsome _ _ => cases href.symm.trans hsome
    | layer _ hmaps hrest => exact ⟨hmaps.congr hsame, _, rfl, hrest⟩
  · rintro ⟨hmaps, further, rfl, hrest⟩
    exact .layer href (hmaps.congr fun key hkey => (hsame key hkey).symm) hrest

theorem standsFor_composition (href : schema.reference? = none) :
    StandsFor document depth (withoutFragments schema :: conjuncts (keywordsOf schema)) [schema] :=
  standsFor_of_unfolds fun _ _ => (unfolds_composition href).1

theorem standsFor_parts (href : schema.reference? = none) :
    StandsFor document depth [schema] (withoutFragments schema :: conjuncts (keywordsOf schema)) :=
  standsFor_of_unfolds fun _ _ => (unfolds_composition href).2

/-- Layers stand for others if they do among all layers. -/
theorem standsFor_of_layers (hflat : ∀ schema ∈ flat, IsLayer schema)
    (hschemas : ∀ schema ∈ schemas, IsLayer schema)
    (hmaps : (∀ schema ∈ schemas, HasClearMaps (keywordsOf schema)) →
      ∀ schema ∈ flat, HasClearMaps (keywordsOf schema))
    (h : (∀ schema ∈ schemas, HasClearMaps (keywordsOf schema)) → ∀ before after inst,
      inst.ordered = true → Upholds document (UpheldTo document depth) (before ++ flat ++ after) inst →
        Upholds document (UpheldTo document depth) (before ++ schemas ++ after) inst) :
    StandsFor document (depth + 1) flat schemas := by
  intro before after inst hinst hall layers hlayers
  rw [List.append_assoc] at hlayers
  obtain ⟨first, second, rfl, hfirst, hsecond⟩ := exists_unfolds_of_append hlayers
  obtain ⟨hclear, further, rfl, hfurther⟩ := (unfolds_of_layers hschemas).1 hsecond
  rw [← List.append_assoc]
  refine h hclear first further inst hinst (hall _ ?_)
  rw [List.append_assoc, List.append_assoc]
  exact unfolds_append hfirst ((unfolds_of_layers hflat).2 ⟨hmaps hclear, further, rfl, hfurther⟩)

end

/-! ## Layers in place of others -/

/-- A layer with others before and after it shows in another such layer, which asks as much. -/
structure ShowsIn (document : Json) (up : List Json → Json → Prop) (inst : Json) (before : List Json)
    (layer : Json) (after front : List Json) (flat : Json) (back : List Json) : Prop where
  keywords : ∀ first, Respects document up (won (first ++ front) flat) inst →
    Respects document up (won (first ++ before) layer) inst
  joined : ∀ key ∈ ["type", "required"],
    (∀ value, flat.get? key = some value → Assertion.Holds key value inst) →
      ∀ value, layer.get? key = some value → Assertion.Holds key value inst
  content : (∀ earlier ∈ before, ∀ key ∈ contentKeywords, earlier.get? key = none) →
    (∀ later ∈ after, ∀ key ∈ contentKeywords, layer.get? key = none → later.get? key = none) →
      (∀ earlier ∈ front, ∀ key ∈ contentKeywords, earlier.get? key = none) ∧
      (∀ later ∈ back, ∀ key ∈ contentKeywords, flat.get? key = none → later.get? key = none) ∧
      (∀ key ∈ contentKeywords, flat.get? key = none → layer.get? key = none) ∧
        ((∀ key value, flat.get? key = some value → contentFailures (keywordsOf flat) key value inst = []) →
          ∀ key value, layer.get? key = some value →
            contentFailures (keywordsOf layer) key value inst = [])
  further : (∀ earlier ∈ before, earlier.get? "additionalProperties" = none) →
    ∀ sub, layer.get? "additionalProperties" = some sub → isItemSchema sub = true →
      (sub = .bool false → before ++ after = []) →
        (∀ earlier ∈ front, earlier.get? "additionalProperties" = none) ∧
          ∃ other, flat.get? "additionalProperties" = some other ∧ isItemSchema other = true ∧
            (other = .bool false → sub = .bool false ∧ front ++ back = []) ∧
              ∀ value, value.ordered = true → up [other] value → up [sub] value

/-- Layers that replace others, each of which shows in one of them. -/
structure Replaces (document : Json) (up : List Json → Json → Prop) (inst : Json)
    (flat schemas : List Json) : Prop where
  nonempty : schemas ≠ []
  possible : .bool false ∈ schemas → .bool false ∈ flat
  absent : ∀ key ∉ ["required", "properties"], (∀ schema ∈ schemas, schema.get? key = none) →
    ∀ schema ∈ flat, schema.get? key = none
  unclaimed : ∀ name, Unclaimed schemas name → Unclaimed flat name
  properties : ∀ name before after value, value.ordered = true →
    Ranked (before ++ declaredBy schemas name ++ after) →
      (Ranked (before ++ declaredBy flat name ++ after) →
        up (before ++ declaredBy flat name ++ after) value) →
          up (before ++ declaredBy schemas name ++ after) value
  shows : ∀ before layer after, schemas = before ++ layer :: after → ∃ front other back,
    flat = front ++ other :: back ∧ ShowsIn document up inst before layer after front other back

section

variable {document inst : Json} {up : List Json → Json → Prop} {flat schemas before after : List Json}

theorem mem_middle {layer : Json} :
    layer ∈ before ++ schemas ++ after ↔ layer ∈ before ∨ layer ∈ schemas ∨ layer ∈ after := by
  rw [List.append_assoc, List.mem_append, List.mem_append]

theorem split_singleton {first layer : Json} (h : [first] = before ++ layer :: after) :
    before = [] ∧ layer = first ∧ after = [] := by
  cases before with
  | nil =>
    cases h
    exact ⟨rfl, rfl, rfl⟩
  | cons head rest => simp at h

theorem split_middle {first last : List Json} {layer : Json}
    (h : before ++ schemas ++ after = first ++ layer :: last) :
    (∃ middle, before = first ++ layer :: middle ∧ last = middle ++ schemas ++ after) ∨
    (∃ front back, schemas = front ++ layer :: back ∧ first = before ++ front ∧ last = back ++ after) ∨
      ∃ middle, after = middle ++ layer :: last ∧ first = before ++ schemas ++ middle := by
  rcases split_append h with ⟨middle, hfront, hlast⟩ | ⟨middle, hfirst, hafter⟩
  · rcases split_append hfront with ⟨rest, hbefore, hmiddle⟩ | ⟨rest, hfirst, hschemas⟩
    · exact .inl ⟨rest, hbefore, by rw [hlast, hmiddle]⟩
    · exact .inr (.inl ⟨rest, middle, hschemas, hfirst, hlast⟩)
  · exact .inr (.inr ⟨middle, hafter, hfirst⟩)

theorem Replaces.absent_among (h : Replaces document up inst flat schemas) {key : String}
    (hkey : key ∉ ["required", "properties"])
    (hnone : ∀ layer ∈ before ++ schemas ++ after, layer.get? key = none) :
    ∀ layer ∈ before ++ flat ++ after, layer.get? key = none := by
  intro layer hlayer
  rcases mem_middle.1 hlayer with hbefore | hflat | hafter
  · exact hnone layer (mem_middle.2 (.inl hbefore))
  · exact h.absent key hkey (fun schema hschema => hnone schema (mem_middle.2 (.inr (.inl hschema)))) layer
      hflat
  · exact hnone layer (mem_middle.2 (.inr (.inr hafter)))

/-- Keywords of a layer after the replaced ones are won as before. -/
theorem Replaces.won_after (h : Replaces document up inst flat schemas) {middle : List Json} {layer : Json}
    (key : String) (value : Json)
    (hvalue : (won (before ++ schemas ++ middle) layer).get? key = some value) :
    (won (before ++ flat ++ middle) layer).get? key = some value := by
  obtain ⟨hkey, hbefore, hheld⟩ := get?_won.1 hvalue
  refine get?_won.2 ⟨hkey, h.absent_among (fun hjoined => hkey ?_) hbefore, hheld⟩
  have hsubset : ["required", "properties"] ⊆ sharedKeywords := by decide
  exact hsubset hjoined

theorem Replaces.unclaimed_among (h : Replaces document up inst flat schemas) {name : String}
    (hunclaimed : Unclaimed (before ++ schemas ++ after) name) :
    Unclaimed (before ++ flat ++ after) name := by
  intro layer hlayer
  rcases mem_middle.1 hlayer with hbefore | hflat | hafter
  · exact hunclaimed layer (mem_middle.2 (.inl hbefore))
  · exact h.unclaimed name (fun schema hschema => hunclaimed schema (mem_middle.2 (.inr (.inl hschema))))
      layer hflat
  · exact hunclaimed layer (mem_middle.2 (.inr (.inr hafter)))

theorem not_mem_of_mem_contentKeywords {key : String} (h : key ∈ contentKeywords) :
    key ∉ ["required", "properties"] := by
  have hother : ∀ key ∈ contentKeywords, key ∉ ["required", "properties"] := by decide
  exact hother key h

/-- Among all layers, a shown layer asks of content what it asks on its own. -/
theorem ShowsIn.content_among {front back start rest : List Json} {layer other : Json}
    (h : ShowsIn document up inst front layer back start other rest)
    (hflat : Upholds document up (before ++ (start ++ other :: rest) ++ after) inst)
    (hfirst : ∀ earlier ∈ before ++ front, ∀ key ∈ contentKeywords, earlier.get? key = none)
    (hlater : ∀ later ∈ back ++ after, ∀ key ∈ contentKeywords, layer.get? key = none →
      later.get? key = none) (key : String) (value : Json) (hvalue : layer.get? key = some value) :
    contentFailures (keywordsOf layer) key value inst = [] := by
  obtain ⟨hstart, hrest, habsent, hcontent⟩ := h.content
    (fun earlier hmem => hfirst earlier (List.mem_append_right _ hmem))
    fun later hmem => hlater later (List.mem_append_left _ hmem)
  refine hcontent (hflat.content (before ++ start) other (rest ++ after) (by simp)
    (fun earlier hmem => ?earlier) fun later hmem key hkey hnone => ?later) key value hvalue
  case earlier =>
    exact (List.mem_append.1 hmem).elim
      (fun hbefore => hfirst earlier (List.mem_append_left _ hbefore)) (hstart earlier)
  case later =>
    rcases List.mem_append.1 hmem with hinside | hafter
    · exact hrest later hinside key hkey hnone
    · exact hlater later (List.mem_append_right _ hafter) key hkey (habsent key hkey hnone)

/-- Among all layers, a shown layer asks of further properties what it asks on its own. -/
theorem ShowsIn.further_among {front back start rest : List Json} {layer other sub value : Json}
    {members : Fields} {name : String} (h : ShowsIn document up inst front layer back start other rest)
    (hflat : Upholds document up (before ++ (start ++ other :: rest) ++ after) inst)
    (hfirst : ∀ earlier ∈ before ++ front, earlier.get? "additionalProperties" = none)
    (hsub : layer.get? "additionalProperties" = some sub) (hschema : isItemSchema sub = true)
    (hclosed : sub = .bool false → before ++ front ++ (back ++ after) = [])
    (hmembers : inst = .object members) (hmem : (name, value) ∈ members) (hvalue : value.ordered = true)
    (hopen : Unclaimed (before ++ (start ++ other :: rest) ++ after) name) : up [sub] value := by
  have halone : sub = .bool false → front ++ back = [] := by
    intro heq
    have hall := hclosed heq
    simp only [List.append_eq_nil_iff] at hall ⊢
    exact ⟨hall.1.2, hall.2.1⟩
  obtain ⟨hstart, found, hfound, hkind, hfalse, hup⟩ := h.further
    (fun earlier hearlier => hfirst earlier (List.mem_append_right _ hearlier)) sub hsub hschema halone
  refine hup value hvalue (hflat.further (before ++ start) other (rest ++ after) (by simp)
    (fun earlier hearlier => ?earlier) found hfound hkind (fun heq => ?closed) members hmembers name value
    hmem hopen)
  case earlier =>
    exact (List.mem_append.1 hearlier).elim
      (fun hbefore => hfirst earlier (List.mem_append_left _ hbefore)) (hstart earlier)
  case closed =>
    obtain ⟨hsame, hnone⟩ := hfalse heq
    have hall := hclosed hsame
    simp only [List.append_eq_nil_iff] at hall hnone ⊢
    exact ⟨⟨hall.1.1, hnone.1⟩, hnone.2, hall.2.2⟩

/-- Among all layers, those that replace others ask as much. -/
theorem Replaces.upholds (h : Replaces document up inst flat schemas) (hinst : inst.ordered = true)
    (hflat : Upholds document up (before ++ flat ++ after) inst) :
    Upholds document up (before ++ schemas ++ after) inst where
  possible hfalse := by
    refine hflat.possible (mem_middle.2 ?_)
    exact (mem_middle.1 hfalse).imp_right fun hrest => hrest.imp_left h.possible
  keywords first layer last hlayers := by
    rcases split_middle hlayers with
      ⟨middle, rfl, rfl⟩ | ⟨front, back, hschemas, rfl, rfl⟩ | ⟨middle, rfl, rfl⟩
    · exact hflat.keywords first layer (middle ++ flat ++ after) (by simp)
    · obtain ⟨start, other, rest, rfl, hshows⟩ := h.shows front layer back hschemas
      exact hshows.keywords before (hflat.keywords (before ++ start) other (rest ++ after) (by simp))
    · exact (hflat.keywords (before ++ flat ++ middle) layer last (by simp)).imp (fun _ _ => id)
        h.won_after
  joined layer hlayer key hkey value hvalue := by
    rcases mem_middle.1 hlayer with hbefore | hschemas | hafter
    · exact hflat.joined layer (mem_middle.2 (.inl hbefore)) key hkey value hvalue
    · obtain ⟨front, back, hsplit⟩ := List.append_of_mem hschemas
      obtain ⟨start, other, rest, rfl, hshows⟩ := h.shows front layer back hsplit
      have hother : other ∈ before ++ (start ++ other :: rest) ++ after := by simp
      exact hshows.joined key hkey (hflat.joined other hother key hkey) value hvalue
    · exact hflat.joined layer (mem_middle.2 (.inr (.inr hafter))) key hkey value hvalue
  content first layer last hlayers hfirst hlater := by
    rcases split_middle hlayers with
      ⟨middle, rfl, rfl⟩ | ⟨front, back, hschemas, rfl, rfl⟩ | ⟨middle, rfl, rfl⟩
    · refine hflat.content first layer (middle ++ flat ++ after) (by simp) hfirst
        fun later hmem key hkey hnone => ?_
      exact h.absent_among (not_mem_of_mem_contentKeywords hkey)
        (fun other hother => hlater other hother key hkey hnone) later hmem
    · obtain ⟨start, other, rest, rfl, hshows⟩ := h.shows front layer back hschemas
      exact hshows.content_among hflat hfirst hlater
    · exact hflat.content (before ++ flat ++ middle) layer last (by simp)
        (fun earlier hmem key hkey => h.absent_among (not_mem_of_mem_contentKeywords hkey)
          (fun other hother => hfirst other hother key hkey) earlier hmem) hlater
  properties members hmembers name value hmem hranked := by
    have hvalue := (IsInside.member hinst hmembers hmem).ordered
    have hall := hflat.properties members hmembers name value hmem
    simp only [declaredBy_append] at hranked hall ⊢
    exact h.properties name _ _ value hvalue hranked hall
  further first layer last hlayers hfirst sub hsub hschema hclosed members hmembers name value hmem
      hunclaimed := by
    have hvalue := (IsInside.member hinst hmembers hmem).ordered
    have hopen := h.unclaimed_among hunclaimed
    rcases split_middle hlayers with
      ⟨middle, rfl, rfl⟩ | ⟨front, back, hschemas, rfl, rfl⟩ | ⟨middle, rfl, rfl⟩
    · refine hflat.further first layer (middle ++ flat ++ after) (by simp) hfirst sub hsub hschema
        (fun hfalse => absurd (hclosed hfalse) ?_) members hmembers name value hmem hopen
      simp [h.nonempty]
    · obtain ⟨start, other, rest, rfl, hshows⟩ := h.shows front layer back hschemas
      exact hshows.further_among hflat hfirst hsub hschema hclosed hmembers hmem hvalue hopen
    · refine hflat.further (before ++ flat ++ middle) layer last (by simp)
        (h.absent_among (by decide) hfirst) sub hsub hschema
        (fun hfalse => absurd (hclosed hfalse) ?_) members hmembers name value hmem hopen
      simp [h.nonempty]

end

end ApiContract
