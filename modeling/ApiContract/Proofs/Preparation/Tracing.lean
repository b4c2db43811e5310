import ApiContract.Proofs.Preparation.Provenance

/-! # Flattening, traced

What a schema is made of stays, when it is flattened: its composition becomes layers of it, and what stands in
it is flattened by itself.

* `Made.composedFields?`: a composition that is merged is made of what its parts are made of.
* `Made.flattenNode?`, `Made.resolveFragment?`: the walk keeps what values are made of. -/

set_option autoImplicit false

namespace ApiContract

open Relation

section

variable {document : Json}

/-- Flattening keeps what a value is made of, down to some depth. -/
def TracesNode (document : Json) (depth : Nat) : Prop :=
  ∀ {role : Role} {schemas : Multiset Json} {followed : List String} {node flat : Json}, role ≠ .keywords →
    Grounded document schemas → node.ordered = true →
      Made document role schemas node → flattenNode? document depth followed node = some flat →
        Made document role schemas flat

/-- A fragment comes to keywords that stand in layers of it, down to some depth. -/
def TracesFragment (document : Json) (depth : Nat) : Prop :=
  ∀ {schemas : Multiset Json} {followed : List String} {fragment : Json} {keywords : Fields},
    Grounded document schemas → fragment.ordered = true →
      Made document .schema schemas fragment →
        resolveFragment? document depth followed fragment = some (some keywords) →
          keywords.get? "allOf" = none ∧
            ∃ layers, UnfoldsTo document schemas layers ∧ Made document .keywords layers (.object keywords)

variable {schemas layers : Multiset Json} {depth : Nat} {followed : List String} {fields keywords : Fields}
  {role : Role} {node flat : Json} {parts : List (Multiset Json × Json)}

theorem le_sum_of_mem {part : Multiset Json × Json} (h : part ∈ parts) : part.1 ≤ (parts.map Prod.fst).sum := by
  induction parts with
  | nil => cases h
  | cons first rest ih =>
    rw [List.map_cons, List.sum_cons]
    rcases List.mem_cons.1 h with rfl | h
    · exact Multiset.le_add_right _ _
    · exact (ih h).trans (Multiset.le_add_left _ _)

/-- A part comes to be layers of its own. -/
theorem unfoldsTo_part {part : Multiset Json × Json} (h : part ∈ parts)
    (hunfolds : UnfoldsTo document schemas (layers + (parts.map Prod.fst).sum)) :
    UnfoldsTo document schemas part.1 :=
  hunfolds.trans (unfoldsTo_of_le ((le_sum_of_mem h).trans (Multiset.le_add_left _ _)))

/-! ## Compositions -/

theorem get?_mergeFields_none {key : String} {target fragment merged : Fields} (hordered : fragment.Ordered)
    (h : mergeFields target fragment = some merged) (htarget : target.get? key = none)
    (hfragment : fragment.get? key = none) (hrequired : key ≠ "required") (hproperties : key ≠ "properties") :
    merged.get? key = none := by
  refine Option.eq_none_iff_forall_not_mem.2 fun value hvalue => ?_
  cases origin_of_mergeFields hordered h hvalue with
  | own hown => rw [htarget] at hown; cases hown
  | added hadded => rw [hfragment] at hadded; cases hadded
  | required hkey => exact hrequired hkey
  | properties hkey => exact hproperties hkey

theorem Made.mergeFragments? (hdocument : document.ordered = true) (htraces : TracesFragment document depth)
    (hgrounded : ∀ part ∈ parts, Grounded document part.1)
    (hordered : ∀ part ∈ parts, part.2.ordered = true)
    (hparts : ∀ part ∈ parts, Made document .schema part.1 part.2) {target merged : Fields}
    (hnone : target.get? "allOf" = none) (htarget : Made document .keywords layers (.object target))
    (h : (parts.map Prod.snd).foldlM (mergeFragment? document depth followed) (some target) =
      some (some merged)) :
    merged.get? "allOf" = none ∧ ∃ all, UnfoldsTo document (layers + (parts.map Prod.fst).sum) all ∧
      Made document .keywords all (.object merged) := by
  induction parts generalizing layers target with
  | nil =>
    cases h
    refine ⟨hnone, layers, ?_, htarget⟩
    rw [List.map_nil, List.sum_nil, add_zero]
    exact .refl
  | cons part rest ih =>
    rw [List.forall_mem_cons] at hgrounded hordered hparts
    rw [List.map_cons, List.foldlM_cons] at h
    obtain ⟨next, hnext, h⟩ := Option.bind_eq_some_iff.1 h
    obtain ⟨resolved, hresolved, rfl⟩ := Option.map_eq_some_iff.1 hnext
    cases hown : resolved.bind (mergeFields target) with
    | none =>
      rw [hown, foldlM_mergeFragment?_none] at h
      cases h
    | some both =>
      rw [hown] at h
      obtain ⟨held, rfl, hboth⟩ := Option.bind_eq_some_iff.1 hown
      have hheld := ordered_of_resolveFragment? hdocument hordered.1 hresolved
      obtain ⟨hheldNone, others, hothers, hmade⟩ := htraces hgrounded.1 hordered.1 hparts.1 hresolved
      have hbothNone := get?_mergeFields_none (Json.ordered_object.1 hheld).1 hboth hnone hheldNone
        (by decide) (by decide)
      obtain ⟨hmerged, all, hall, hkeywords⟩ := ih hgrounded.2 hordered.2 hparts.2 hbothNone
        (Made.merging_keywords hheld htarget hmade hboth) h
      refine ⟨hmerged, all, ?_, hkeywords⟩
      rw [List.map_cons, List.sum_cons, ← add_assoc]
      exact ((UnfoldsTo.add_both .refl hothers).add _).trans hall

theorem Made.erase_allOf (h : Made document .keywords layers (.object fields)) :
    Made document .keywords layers (.object (fields.erase "allOf")) := by
  refine .keywords (fun reference hreference => ?_) fun key value hvalue hdata _ => ?_
  · rw [Fields.get?_erase, if_neg (by decide)] at hreference
    exact h.reference hreference
  · rw [Fields.get?_erase] at hvalue
    split at hvalue
    · cases hvalue
    · rename_i hkey
      exact h.keyword hvalue hdata fun heq => absurd heq.symm hkey

/-- The fields of an object after its own composition has been merged: as they were, or made of layers that
its parts have become. -/
theorem Made.composedFields? (hdocument : document.ordered = true) (htraces : TracesFragment document depth)
    (hgrounded : Grounded document schemas) (hordered : (Json.object fields).ordered = true)
    (h : Made document .schema schemas (.object fields))
    (hkeywords : ApiContract.composedFields? document depth followed fields = some keywords) :
    keywords = fields ∨ fragments? (.object keywords) = none ∧ ∃ layers, UnfoldsTo document schemas layers ∧
      Proper document schemas layers ∧ Made document .keywords layers (.object keywords) := by
  unfold ApiContract.composedFields? at hkeywords
  split at hkeywords
  · rename_i fragments hlist
    obtain ⟨flat, hflat, rfl⟩ := Option.map_eq_some_iff.1 hkeywords
    cases flat with
    | none => exact .inl rfl
    | some merged =>
      obtain ⟨layers, parts, hunfolds, hfragments, hproper, -, hparts, hlayers⟩ := h.exists_parts
      have hsome : fragments? (.object fields) = some fragments := fragments?_of_get? hlist
      rw [hsome, Option.getD_some] at hfragments
      subst hfragments
      have hpartsGrounded : ∀ part ∈ parts, Grounded document part.1 :=
        fun part hpart => hgrounded.unfoldsTo (unfoldsTo_part hpart hunfolds)
      have hpartsOrdered : ∀ part ∈ parts, part.2.ordered = true := by
        intro part hpart
        exact Json.ordered_array.1 (Json.ordered_of_get? hordered hlist) part.2 (List.mem_map_of_mem hpart)
      obtain ⟨hmergedNone, all, hall, hmerged⟩ := Made.mergeFragments? hdocument htraces hpartsGrounded
        hpartsOrdered hparts (by rw [Fields.get?_erase, if_pos rfl]) hlayers.erase_allOf hflat
      refine .inr ⟨?_, all, hunfolds.trans hall, (hproper ?_).unfoldsTo hall, hmerged⟩
      · exact fragments?_of_get?_eq_none hmergedNone
      · rw [hsome]
        rfl
  · cases hkeywords
    exact .inl rfl

theorem Made.composed_schema (hdocument : document.ordered = true) (htraces : TracesFragment document depth)
    (hgrounded : Grounded document schemas) (hordered : (Json.object fields).ordered = true)
    (h : Made document .schema schemas (.object fields))
    (hkeywords : ApiContract.composedFields? document depth followed fields = some keywords) :
    Made document .schema schemas (.object keywords) := by
  rcases h.composedFields? hdocument htraces hgrounded hordered hkeywords with rfl |
    ⟨hnone, layers, hlayers, -, hmade⟩
  · exact h
  · exact .of_keywords hlayers hnone hmade

/-! ## What stands in a schema -/

section

variable {results : Fields}

theorem fragments?_of_flattenFields
    (hresults : Fields.mapValues? (flattenField? document depth followed) keywords = some results) :
    fragments? (.object results) = none ↔ fragments? (.object keywords) = none := by
  rw [fragments?_eq_none, fragments?_eq_none]
  constructor
  · intro h value hvalue
    obtain ⟨result, hflat, hresult⟩ := Fields.exists_of_mapValues? hresults hvalue
    exact (sameKind_of_flattenField? _ _ _ hflat).items?_eq_none (h result hresult)
  · intro h result hresult
    rw [Fields.get?_of_mapValues? hresults, Option.bind_eq_some_iff] at hresult
    obtain ⟨value, hvalue, hflat⟩ := hresult
    exact (sameKind_of_flattenField? _ _ _ hflat).symm.items?_eq_none (h value hvalue)

theorem exists_of_flattenFields {key : String} {result : Json}
    (hresults : Fields.mapValues? (flattenField? document depth followed) keywords = some results)
    (hresult : results.get? key = some result) (hdata : isDataKeyword key = false) :
    ∃ value, keywords.get? key = some value ∧ flattenNode? document depth followed value = some result := by
  rw [Fields.get?_of_mapValues? hresults, Option.bind_eq_some_iff] at hresult
  obtain ⟨value, hvalue, hflat⟩ := hresult
  rw [flattenField?, hdata] at hflat
  exact ⟨value, hvalue, hflat⟩

theorem under_ne_keywords (key : String) : Role.under key ≠ .keywords := by
  unfold Role.under
  split <;> simp

theorem member_ne_keywords (name : String) (role : Role) : role.member name ≠ .keywords := by
  cases role <;> simp [Role.member]

theorem Made.flattenKeywords (htraces : TracesNode document depth)
    (hgrounded : Grounded document layers) (hordered : (Json.object keywords).ordered = true)
    (h : Made document .keywords layers (.object keywords))
    (hresults : Fields.mapValues? (flattenField? document depth followed) keywords = some results) :
    Made document .keywords layers (.object results) := by
  refine .keywords (fun reference hreference => ?_) fun key result hresult hdata hallOf => ?_
  · rw [Fields.get?_of_mapValues? hresults, Option.bind_eq_some_iff] at hreference
    obtain ⟨value, hvalue, hflat⟩ := hreference
    cases sameKind_of_flattenField? _ _ _ hflat
    exact h.reference hvalue
  · obtain ⟨value, hvalue, hflat⟩ := exists_of_flattenFields hresults hresult hdata
    have hmade := h.keyword hvalue hdata fun heq => (fragments?_of_flattenFields hresults).1 (hallOf heq)
    exact htraces (under_ne_keywords key) hgrounded (Json.ordered_of_get? hordered hvalue) hmade hflat

theorem exists_flattened_parts {flats : List Json}
    (h : List.Forall₂ (fun item result => flattenNode? document depth followed item = some result)
      (parts.map Prod.snd) flats) :
    ∃ given : List (Multiset Json × Json), given.map Prod.fst = parts.map Prod.fst ∧
      given.map Prod.snd = flats ∧ ∀ part ∈ given, ∃ old ∈ parts, part.1 = old.1 ∧
        flattenNode? document depth followed old.2 = some part.2 := by
  induction parts generalizing flats with
  | nil =>
    cases h
    exact ⟨[], rfl, rfl, List.forall_mem_nil _⟩
  | cons part rest ih =>
    cases h with
    | @cons _ flat _ others hflat hrest =>
      obtain ⟨given, hfirst, hsecond, hgiven⟩ := ih hrest
      refine ⟨(part.1, flat) :: given, ?_, ?_, List.forall_mem_cons.2
        ⟨⟨part, List.mem_cons_self, rfl, hflat⟩, ?_⟩⟩
      · rw [List.map_cons, List.map_cons, hfirst]
      · rw [List.map_cons, hsecond]
      · intro other hother
        obtain ⟨old, hold, heq⟩ := hgiven other hother
        exact ⟨old, List.mem_cons_of_mem _ hold, heq⟩

/-- A schema whose parts and keywords have been flattened. -/
theorem Made.flattenFields (htraces : ∀ within ≤ depth, TracesNode document within)
    (hgrounded : Grounded document schemas) (hordered : (Json.object keywords).ordered = true)
    (h : Made document .schema schemas (.object keywords))
    (hresults : Fields.mapValues? (flattenField? document depth followed) keywords = some results) :
    Made document .schema schemas (.object results) := by
  obtain ⟨layers, parts, hunfolds, hfragments, hproper, hsmall, hparts, hkeywords⟩ := h.exists_parts
  have hlayers : UnfoldsTo document schemas layers :=
    hunfolds.trans (unfoldsTo_of_le (Multiset.le_add_right _ _))
  have hmade := hkeywords.flattenKeywords (htraces depth le_rfl) (hgrounded.unfoldsTo hlayers) hordered
    hresults
  cases hlist : fragments? (.object keywords) with
  | none => exact .of_keywords hlayers ((fragments?_of_flattenFields hresults).2 hlist) hmade
  | some fragments =>
    rw [hlist, Option.getD_some] at hfragments
    subst hfragments
    obtain ⟨_, ⟨⟩, hget⟩ := fragments?_eq_some.1 hlist
    obtain ⟨flat, hflat, hresult⟩ := Fields.exists_of_mapValues? hresults hget
    rw [flattenField?, if_neg (by decide)] at hflat
    cases depth with
    | zero => cases hflat
    | succ depth =>
      rw [flattenNode?_array] at hflat
      obtain ⟨flats, hflats, rfl⟩ := Option.map_eq_some_iff.1 hflat
      obtain ⟨given, hfirst, hsecond, hgiven⟩ := exists_flattened_parts (forall₂_of_mapM hflats)
      refine .schema layers given ?_ ?_ (fun _ => ?_) ?_ ?_ hmade
      · rw [hfirst]
        exact hunfolds
      · rw [fragments?_of_get? hresult, hsecond]
        rfl
      · rw [hfirst]
        exact hproper (by rw [hlist]; rfl)
      · intro part hpart
        obtain ⟨old, hold, heq, -⟩ := hgiven part hpart
        rw [heq]
        exact hsmall old hold
      · intro part hpart
        obtain ⟨old, hold, heq, hflat⟩ := hgiven part hpart
        rw [heq]
        have hitem := Json.ordered_array.1 (Json.ordered_of_get? hordered hget) old.2
          (List.mem_map_of_mem hold)
        exact htraces depth (Nat.le_succ depth) (by simp)
          (hgrounded.unfoldsTo (unfoldsTo_part hold hunfolds)) hitem (hparts old hold) hflat

end

/-! ## The walk -/

/-- What a schema refers to is one that it is made of. -/
theorem Made.follow {fragment target : Json} (h : Made document .schema schemas fragment)
    (hfollows : Follows document fragment target) : UnfoldsTo document schemas {target} := by
  obtain ⟨reference, hreference, htarget⟩ := hfollows
  cases fragment with
  | object fields =>
    obtain ⟨layers, parts, hunfolds, -, -, -, -, hkeywords⟩ := h.exists_parts
    obtain ⟨layer, hlayer, href⟩ := hkeywords.reference (get?_of_reference? hreference)
    have hle : {layer} ≤ layers + (parts.map Prod.fst).sum :=
      (Multiset.singleton_le.2 hlayer).trans (Multiset.le_add_right _ _)
    exact (hunfolds.trans (unfoldsTo_of_le hle)).tail (.follow href htarget)
  | _ => cases hreference

theorem tracesFragment_succ (hplain : PlainProperties document) (hdocument : document.ordered = true)
    (hnode : TracesNode document depth) (hfragment : TracesFragment document depth) :
    TracesFragment document (depth + 1) := by
  intro schemas followed fragment keywords hgrounded hordered hmade h
  unfold ApiContract.resolveFragment? at h
  split at h
  · rename_i reference hreference
    split at h
    · cases h
    · split at h
      · rename_i target htarget
        have hunfolds := hmade.follow ⟨reference, hreference, htarget⟩
        have htargetGrounded := hgrounded.unfoldsTo hunfolds
        have htargetMade := made_of_merged hplain (htargetGrounded target (Multiset.mem_singleton_self target))
        obtain ⟨hnone, layers, hlayers, hkeywords⟩ := hfragment htargetGrounded
          (Json.ordered_of_resolve? hdocument htarget) htargetMade h
        exact ⟨hnone, layers, hunfolds.trans hlayers, hkeywords⟩
      · cases h
  · obtain ⟨flat, hflat, hkeywords⟩ := Option.map_eq_some_iff.1 h
    have hflatMade := hnode (show Role.schema ≠ .keywords by simp) hgrounded hordered hmade hflat
    unfold flatFragment? at hkeywords
    split at hkeywords
    · rename_i fields
      split at hkeywords
      · cases hkeywords
      · rename_i hallOf
        cases hkeywords
        have hnone : keywords.get? "allOf" = none := Fields.hasKey_eq_false_iff.1 (Bool.not_eq_true _ ▸ hallOf)
        exact ⟨hnone, hflatMade.exists_layers (fragments?_of_get?_eq_none hnone)⟩
    · cases hkeywords

theorem Made.flattenList (htraces : TracesNode document depth) (hrole : role.isProperty = false)
    (hgrounded : Grounded document schemas) {items flats : List Json}
    (hordered : (Json.array items).ordered = true) (h : Made document role schemas (.array items))
    (hflats : items.mapM (ApiContract.flattenNode? document depth followed) = some flats) :
    Made document role schemas (.array flats) := by
  have hitems := h.items hrole
  refine .list hrole fun flat hflat => ?_
  obtain ⟨i, hi⟩ := List.mem_iff_getElem?.1 hflat
  obtain ⟨item, hitem, hresult⟩ := exists_getElem?_of_forall₂ (forall₂_of_mapM hflats) hi
  have hmem := List.mem_of_getElem? hitem
  exact htraces (show Role.part ≠ .keywords by simp) hgrounded (Json.ordered_array.1 hordered item hmem)
    (hitems item hmem) hresult

theorem tracesSchema_succ (hdocument : document.ordered = true)
    (htraces : ∀ within ≤ depth, TracesNode document within) (hfragment : TracesFragment document depth)
    (hgrounded : Grounded document schemas) (hordered : node.ordered = true)
    (hmade : Made document .schema schemas node)
    (h : flattenNode? document (depth + 1) followed node = some flat) : Made document .schema schemas flat := by
  cases node with
  | object fields =>
    rw [flattenNode?_object, Option.bind_eq_some_iff] at h
    obtain ⟨keywords, hkeywords, h⟩ := h
    obtain ⟨results, hresults, rfl⟩ := Option.map_eq_some_iff.1 h
    have hcomposed := hmade.composed_schema hdocument hfragment hgrounded hordered hkeywords
    have hkeywordsOrdered := ordered_of_composedFields? hdocument hordered hkeywords
    exact hcomposed.flattenFields htraces hgrounded hkeywordsOrdered hresults
  | array items =>
    rw [flattenNode?_array] at h
    obtain ⟨flats, hflats, rfl⟩ := Option.map_eq_some_iff.1 h
    exact hmade.flattenList (htraces depth le_rfl) rfl hgrounded hordered hflats
  | _ =>
    cases h
    exact hmade

theorem tracesNode_succ (hdocument : document.ordered = true)
    (htraces : ∀ within ≤ depth, TracesNode document within) (hfragment : TracesFragment document depth) :
    TracesNode document (depth + 1) := by
  intro role schemas followed node flat hrole hgrounded hordered hmade h
  have hkind := sameKind_of_flattenNode? h
  cases hmade with
  | plain hproperty hobject hlist =>
    cases hkind with
    | refl => exact .plain hproperty hobject hlist
    | array items => exact absurd rfl (hlist items)
    | object fields => exact absurd rfl (hobject fields)
  | list hproperty hitems =>
    rw [flattenNode?_array] at h
    obtain ⟨flats, hflats, rfl⟩ := Option.map_eq_some_iff.1 h
    exact (Made.list hproperty hitems).flattenList (htraces depth le_rfl) hproperty hgrounded hordered hflats
  | part hbelow hcomposition hmade =>
    obtain ⟨keywords, rfl⟩ := hkind.symm.exists_object
    have hnode := Grounded.single (.composition (hgrounded.below hbelow) hcomposition)
    exact .part hbelow hcomposition (tracesSchema_succ hdocument htraces hfragment hnode hordered hmade h)
  | property hdata hcollects hmade =>
    exact .property hdata hcollects (tracesSchema_succ hdocument htraces hfragment
      (hgrounded.collects hdata hcollects) hordered hmade h)
  | @members _ _ fields hmap hfragments hmembers =>
    rw [flattenNode?_object, composedFields?_of_fragments?_eq_none hfragments, Option.bind_some] at h
    obtain ⟨results, hresults, rfl⟩ := Option.map_eq_some_iff.1 h
    refine .members hmap ((fragments?_of_flattenFields hresults).2 hfragments)
      fun name result hresult hdata => ?_
    obtain ⟨value, hvalue, hflat⟩ := exists_of_flattenFields hresults hresult hdata
    exact htraces depth le_rfl (member_ne_keywords name role) hgrounded (Json.ordered_of_get? hordered hvalue)
      (hmembers name value hvalue hdata) hflat
  | keywords => exact absurd rfl hrole
  | schema layers parts hunfolds hfragments hproper hsmall hparts hkeywords =>
    exact tracesSchema_succ hdocument htraces hfragment hgrounded hordered
      (.schema layers parts hunfolds hfragments hproper hsmall hparts hkeywords) h

/-- Flattening keeps what values are made of. -/
theorem traces (hplain : PlainProperties document) (hdocument : document.ordered = true) (depth : Nat) :
    TracesNode document depth ∧ TracesFragment document depth := by
  induction depth using Nat.strong_induction_on with
  | _ depth ih =>
    cases depth with
    | zero =>
      refine ⟨?_, ?_⟩
      · intro role schemas followed node flat _ _ _ _ h
        cases h
      · intro schemas followed fragment keywords _ _ _ h
        cases h
    | succ depth =>
      obtain ⟨hnode, hfragment⟩ := ih depth (Nat.lt_succ_self depth)
      have hall : ∀ within ≤ depth, TracesNode document within :=
        fun within hwithin => (ih within (Nat.lt_succ_of_le hwithin)).1
      exact ⟨tracesNode_succ hdocument hall hfragment, tracesFragment_succ hplain hdocument hnode hfragment⟩

end

end ApiContract
