import ApiContract.Proofs.Schema.Applying
import ApiContract.Proofs.Schema.Following

/-! # What a schema asks for

A schema asks for others of the same value, behind references and in conjuncts, and its keywords ask for
schemas of the parts. What passes a schema passes all of these.

* `Conjoined`: the schemas that a schema asks for of the same value.
* `Conjoined.exists_passes`: what passes a schema passes those.
* `membersPass_of_passes`, `itemsPass_of_passes`: and the parts pass what is asked of them. -/

set_option autoImplicit false

namespace ApiContract

/-! ## Schemas of the same value -/

/-- A schema asks for another one of the same value, along references and through conjuncts. -/
inductive Conjoined (root : Json) : List String → Json → Json → Prop where
  | refl (schema : Json) : Conjoined root [] schema schema
  | reference {schema target last : Json} {reference : String} {references : List String}
    (href : schema.reference? = some reference) (htarget : targetOf root reference = .ok target)
    (h : Conjoined root references target last) : Conjoined root (reference :: references) schema last
  | conjunct {keywords : Fields} {value sub last : Json} {references : List String}
    (href : (Json.object keywords).reference? = none) (hall : keywords.get? "allOf" = some value)
    (hsub : sub ∈ listed value) (h : Conjoined root references sub last) :
    Conjoined root references (.object keywords) last

section

variable {root schema target last inst : Json} {known pool references : List String} {reference : String}
  {keywords : Fields}

/-- What a schema asks for is asked for without coming to one reference twice. -/
theorem Conjoined.exists_without (htarget : targetOf root reference = .ok target)
    (h : Conjoined root references schema last) :
    reference ∉ references ∨ ∃ others ⊆ references, reference ∉ others ∧
      others.length < references.length ∧ Conjoined root others target last := by
  induction h with
  | refl => exact .inl List.not_mem_nil
  | @reference schema next last first rest href hnext h ih =>
    rcases ih with hrest | ⟨others, hsubset, hothers, hshorter, hway⟩
    · by_cases hfirst : reference = first
      · subst hfirst
        cases htarget.symm.trans hnext
        exact .inr ⟨rest, List.subset_cons_self _ _, hrest, Nat.lt_succ_self _, h⟩
      · exact .inl (List.not_mem_cons_of_ne_of_not_mem hfirst hrest)
    · exact .inr ⟨others, List.subset_cons_of_subset _ hsubset, hothers, Nat.lt_succ_of_lt hshorter, hway⟩
  | conjunct _ _ _ _ ih => exact ih

theorem Conjoined.references_subset (h : Conjoined root references schema last)
    (hschema : schema.allReferences ⊆ root.allReferences) :
    references ⊆ root.references ∧ last.allReferences ⊆ root.allReferences := by
  induction h with
  | refl => exact ⟨List.nil_subset _, hschema⟩
  | @reference schema target last first rest href htarget _ ih =>
    obtain ⟨hrest, hlast⟩ := ih (allReferences_subset_of_targetOf htarget)
    refine ⟨List.cons_subset.2 ⟨Json.mem_references.2 (hschema ?_), hrest⟩, hlast⟩
    cases schema with
    | object keywords => exact mem_allReferences_of_get? (get?_of_reference? href)
    | _ => cases href
  | conjunct _ hall hsub _ ih =>
    exact ih fun _ hmem => hschema ((Beneath.listed hall hsub).allReferences_subset hmem)

theorem answers_of_passes (href : (Json.object keywords).reference? = none)
    (hpasses : Evaluation.Passes root known pool (.object keywords) inst) (keyword : String) :
    Answers (fun sub => Evaluation.Passes root known pool sub inst) (Evaluation.Passes root known known)
      keywords keyword inst := by
  intro value hvalue
  have hentry := mem_fieldParts_object.2 (Fields.mem_of_get? hvalue)
  exact ((Evaluation.passes_keywords (reference?_object.1 href)).1 hpasses (keyword, value) hentry).2

theorem passes_conjunct {value sub : Json} (href : (Json.object keywords).reference? = none)
    (hall : keywords.get? "allOf" = some value) (hsub : sub ∈ listed value)
    (h : Evaluation.Passes root known pool (.object keywords) inst) :
    Evaluation.Passes root known pool sub inst := by
  obtain ⟨part, rfl, hasks⟩ := answers_of_present hall
  exact asks_allOf.1 (hasks.1 (answers_of_passes href h "allOf")) sub hsub

/-- What a schema asks for is passed by what passes the schema. -/
theorem Conjoined.exists_passes (h : Conjoined root references schema last) (hpool : references ⊆ pool)
    (hpasses : Evaluation.Passes root known pool schema inst) :
    ∃ within, Evaluation.Passes root known within last inst := by
  induction hlength : references.length using Nat.strong_induction_on generalizing references schema pool with
  | _ length ih =>
    induction h with
    | refl => exact ⟨pool, hpasses⟩
    | @reference schema target last first rest href htarget h =>
      cases schema with
      | object keywords =>
        have hnext := (Evaluation.passes_reference (get?_of_reference? href)).1 hpasses
          (hpool List.mem_cons_self) target htarget
        -- a reference that is followed is not followed again for the same value
        obtain ⟨others, hsubset, hothers, hshorter, hway⟩ : ∃ others ⊆ rest, first ∉ others ∧
            others.length ≤ rest.length ∧ Conjoined root others target last := by
          rcases h.exists_without htarget with hrest | ⟨others, hsubset, hothers, hshorter, hway⟩
          · exact ⟨rest, List.Subset.refl _, hrest, le_rfl, h⟩
          · exact ⟨others, hsubset, hothers, hshorter.le, hway⟩
        refine ih others.length ?_ hway (fun other hmem => ?_) hnext rfl
        · rw [← hlength]
          exact Nat.lt_succ_of_le hshorter
        · refine List.mem_filter.2 ⟨hpool (List.mem_cons_of_mem _ (hsubset hmem)), ?_⟩
          simpa using fun heq : other = first => hothers (heq ▸ hmem)
      | _ => cases href
    | conjunct href hall hsub _ ihsub => exact ihsub ih hpool (passes_conjunct href hall hsub hpasses) hlength

end

/-! ## Schemas of parts -/

/-- A schema that keywords ask of a member of an object: one for its name, or that for further members. -/
def AsksOfMember (keywords : Fields) (name : String) (sub : Json) : Prop :=
  sub ∈ propertySchemas keywords name ∨
    propertySchemas keywords name = [] ∧ keywords.get? "additionalProperties" = some sub ∧
      isItemSchema sub = true

section

variable {root inst sub : Json} {known pool : List String} {keywords : Fields}

theorem AsksOfMember.beneath {name : String} (h : AsksOfMember keywords name sub) :
    Beneath keywords sub := by
  rcases h with hown | ⟨-, hrest, -⟩
  · exact beneath_of_propertySchemas hown
  · exact .value hrest

/-- The members of an object that passes keywords pass what is asked of them. -/
theorem membersPass_of_passes {fields : Fields} (href : (Json.object keywords).reference? = none)
    (ho : fields.Ordered) (hpasses : Evaluation.Passes root known pool (.object keywords) (.object fields)) :
    MembersPass (Evaluation.Passes root known known) keywords fields := by
  have hanswers := answers_of_passes href hpasses
  cases hrestricts : restrictsProperties keywords with
  | true =>
    exact (members_of_restricted (fun _ => Evaluation.not_passes_false) hrestricts).1
      ⟨hanswers _, hanswers _, hanswers _⟩
  | false =>
    intro name value hmem
    refine ⟨fun sub hsub => ?_, fun _ sub hsub hitem =>
      absurd hitem (not_isItemSchema_of_open hrestricts hsub)⟩
    rcases List.mem_append.1 hsub with hdeclared | hmatched
    · have hsome : declaredProperty? keywords name = some sub := Option.mem_toList.1 hdeclared
      obtain ⟨part, rfl, hpart⟩ := exists_fieldPart rfl hmem
      obtain ⟨key, given, hentry, applications, hdemand, ha⟩ := required_property ho hpart hsome
      exact ((Evaluation.passes_keywords (reference?_object.1 href)).1 hpasses (key, given) hentry).2
        _ hdemand _ ha
    · obtain ⟨p, hp, rfl⟩ := List.mem_map.1 hmatched
      exact (answers_patternProperties hrestricts).1 (hanswers _) name value hmem p hp

/-- The items of an array that passes keywords pass what is asked of their places. -/
theorem itemsPass_of_passes {items : List Json} (href : (Json.object keywords).reference? = none)
    (hpasses : Evaluation.Passes root known pool (.object keywords) (.array items)) :
    ItemsPass (Evaluation.Passes root known known) keywords items :=
  (answers_itemKeywords fun _ => Evaluation.not_passes_false).1
    ⟨answers_of_passes href hpasses _, answers_of_passes href hpasses _⟩

theorem AsksOfMember.passes {fields : Fields} {name : String} {held : Json}
    (h : AsksOfMember keywords name sub) (hmem : (name, held) ∈ fields)
    (hmembers : MembersPass (Evaluation.Passes root known known) keywords fields) :
    Evaluation.Passes root known known sub held := by
  obtain ⟨hown, hrest⟩ := hmembers name held hmem
  rcases h with hsub | ⟨hnone, hsub, hitem⟩
  · exact hown sub hsub
  · exact hrest hnone sub hsub hitem

end

end ApiContract
