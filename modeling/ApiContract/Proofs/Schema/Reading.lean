import ApiContract.Proofs.Schema.Cases
import ApiContract.Proofs.Schema.Targets
import Mathlib.Logic.Relation

/-! # The reading of schemas with cases

What schemas with cases mean, without the detour through conditions in `allOf` and a guard beside the
evaluation: a value satisfies such a schema if its tag selects a case, the value satisfies the schema of
the case, and it satisfies the other keywords.

* `HasCases`: a schema as the introduction of cases leaves it.
* `Satisfies`: the reading. It takes into account that the guard may pass over some conjuncts.
* `InPlace`, `Leads`: to which schemas a schema leads, for the same instance or at all.
* `IsReadable`: the schemas the reading is for. -/

set_option autoImplicit false

namespace ApiContract

/-! ## Schemas with cases -/

/-- A schema whose alternatives have become the cases of a tag. -/
structure HasCases (schema : Json) (tag : String) (cases base : Fields) : Prop where
  rewritten : schema = .object (withCases tag cases base)
  tagged : discriminatorTag? base = some tag
  ordered : (Json.object base).ordered = true
  unreferenced : ∀ reference, base.get? "$ref" ≠ some (.string reference)
  fresh : base.get? casesKeyword = none
  listed : ∀ value, base.get? "allOf" = some value → ∃ given, value = .array given

/-- The keywords of a schema with cases beside its alternatives. -/
def otherKeywords (base : Fields) : Fields := base.erase "oneOf"

/-! ## The reading -/

/-- What a value has to be to satisfy a schema. From a conjunct on at which the reading `lapses` it is
not `strict` any more: there a value may select no case. -/
inductive Satisfies (root : Json) (lapses : Json → Bool) : Bool → Json → Json → Prop where
  | anything {strict : Bool} {inst : Json} : Satisfies root lapses strict (.bool true) inst
  | reference {strict : Bool} {keywords : Fields} {reference : String} {target inst : Json}
    (href : keywords.get? "$ref" = some (.string reference))
    (htarget : root.resolve? reference = some target)
    (h : Satisfies root lapses strict target inst) :
    Satisfies root lapses strict (.object keywords) inst
  | keywords {strict : Bool} {keywords : Fields} {inst : Json}
    (href : ∀ reference, keywords.get? "$ref" ≠ some (.string reference))
    (hcases : keywords.get? casesKeyword = none)
    (hasserts : ∀ key value, keywords.get? key = some value → Assertion.Holds key value inst)
    (hall : ∀ sub ∈ conjuncts keywords, Satisfies root lapses (strict && !lapses sub) sub inst)
    (hmembers : ∀ fields name value sub, inst = .object fields → (name, value) ∈ fields →
      propertySchemaOf? keywords name = some sub → Satisfies root lapses strict sub value)
    (hitems : ∀ (items : List Json) (i : Nat) item sub, inst = .array items →
      items[i]? = some item → itemSchema? keywords i = some sub →
        Satisfies root lapses strict sub item) :
    Satisfies root lapses strict (.object keywords) inst
  | selected {strict : Bool} {schema branch inst : Json} {tag value : String} {cases base : Fields}
    (hcases : HasCases schema tag cases base)
    (hvalue : inst.getString? tag = some value) (hbranch : cases.get? value = some branch)
    (hothers : Satisfies root lapses strict (.object (otherKeywords base)) inst)
    (h : Satisfies root lapses strict branch inst) :
    Satisfies root lapses strict schema inst
  | unselected {schema inst : Json} {tag : String} {cases base : Fields}
    (hcases : HasCases schema tag cases base)
    (hnone : ∀ value, inst.getString? tag = some value → cases.get? value = none)
    (hothers : Satisfies root lapses false (.object (otherKeywords base)) inst) :
    Satisfies root lapses false schema inst

/-! ## Where schemas lead -/

/-- A schema leads to another one for the same instance. -/
inductive InPlace (root : Json) : Json → Json → Prop where
  | reference {keywords : Fields} {reference : String} {target : Json}
    (href : keywords.get? "$ref" = some (.string reference))
    (htarget : root.resolve? reference = some target) : InPlace root (.object keywords) target
  | conjunct {keywords : Fields} {sub : Json}
    (href : ∀ reference, keywords.get? "$ref" ≠ some (.string reference))
    (hcases : keywords.get? casesKeyword = none) (hsub : sub ∈ conjuncts keywords) :
    InPlace root (.object keywords) sub
  | case {schema branch : Json} {tag value : String} {cases base : Fields}
    (hcases : HasCases schema tag cases base) (hbranch : cases.get? value = some branch) :
    InPlace root schema branch
  | others {schema : Json} {tag : String} {cases base : Fields}
    (hcases : HasCases schema tag cases base) :
    InPlace root schema (.object (otherKeywords base))

/-- A schema leads to another one, for an instance or for a part of it. -/
inductive Leads (root : Json) : Json → Json → Prop where
  | inPlace {schema sub : Json} (h : InPlace root schema sub) : Leads root schema sub
  | property {keywords : Fields} {name : String} {sub : Json}
    (href : ∀ reference, keywords.get? "$ref" ≠ some (.string reference))
    (hcases : keywords.get? casesKeyword = none)
    (hsub : propertySchemaOf? keywords name = some sub) : Leads root (.object keywords) sub
  | item {keywords : Fields} {place : Nat} {sub : Json}
    (href : ∀ reference, keywords.get? "$ref" ≠ some (.string reference))
    (hcases : keywords.get? casesKeyword = none)
    (hsub : itemSchema? keywords place = some sub) : Leads root (.object keywords) sub

/-- The schemas that a root leads to. -/
abbrev Reaches (root schema : Json) : Prop := Relation.ReflTransGen (Leads root) root schema

/-! ## Readable schemas -/

/-- A schema of the kinds the reading is for. Keywords beside a reference do not count. -/
inductive IsReadable (root : Json) : Json → Prop where
  | anything (b : Bool) : IsReadable root (.bool b)
  | reference {keywords : Fields} {name : String} {target : Json}
    (href : keywords.get? "$ref" = some (.string ("#/components/schemas/" ++ name)))
    (hname : '%' ∉ name.toList)
    (htarget : targetOf root ("#/components/schemas/" ++ name) = .ok target) :
    IsReadable root (.object keywords)
  | keywords {keywords : Fields}
    (href : ∀ reference, keywords.get? "$ref" ≠ some (.string reference))
    (hcases : keywords.get? casesKeyword = none) (hplain : IsPlain keywords) :
    IsReadable root (.object keywords)
  | cases {schema : Json} {tag : String} {cases base : Fields}
    (hcases : HasCases schema tag cases base) : IsReadable root schema

/-! ## What schemas that are led to inherit -/

section

variable {root schema sub : Json} {keywords : Fields}

theorem get?_cases_of_hasCases {tag : String} {cases base : Fields}
    (h : HasCases schema tag cases base) : schema.get? casesKeyword = some (.object cases) := by
  rw [h.rewritten, Json.get?, get?_withCases, if_pos rfl]

/-- The schema of a property is two levels down, or one. -/
theorem mem_of_propertySchemaOf? {name : String} (h : propertySchemaOf? keywords name = some sub) :
    (∃ properties, keywords.get? "properties" = some (.object properties) ∧
      Fields.get? name properties = some sub) ∨
    keywords.get? "additionalProperties" = some sub := by
  unfold propertySchemaOf? at h
  cases hdeclared : declaredProperty? keywords name with
  | none =>
    rw [hdeclared, Option.none_or, Option.filter_eq_some_iff] at h
    exact .inr h.1
  | some found =>
    rw [hdeclared, Option.some_or, Option.some.injEq] at h
    subst h
    unfold declaredProperty? at hdeclared
    split at hdeclared
    · rename_i properties hproperties
      exact .inl ⟨properties, hproperties, hdeclared⟩
    · cases hdeclared

theorem mem_of_itemSchema? {place : Nat} (h : itemSchema? keywords place = some sub) :
    (∃ tuple, keywords.get? "items" = some (.array tuple) ∧ sub ∈ tuple) ∨
    keywords.get? "additionalItems" = some sub ∨ keywords.get? "items" = some sub := by
  unfold itemSchema? at h
  split at h
  · rename_i tuple htuple
    cases hitem : tuple[place]? with
    | none =>
      rw [hitem, Option.none_or, Option.filter_eq_some_iff] at h
      exact .inr (.inl h.1)
    | some found =>
      rw [hitem, Option.some_or, Option.some.injEq] at h
      exact .inl ⟨tuple, htuple, h ▸ List.mem_of_getElem? hitem⟩
  · rw [Option.filter_eq_some_iff] at h
    exact .inr (.inr h.1)

theorem mem_of_conjunct (h : sub ∈ conjuncts keywords) :
    ∃ items, keywords.get? "allOf" = some (.array items) ∧ sub ∈ items := by
  obtain ⟨value, hvalue, hmem⟩ := mem_conjuncts.1 h
  cases value with
  | array items => exact ⟨items, hvalue, hmem⟩
  | _ => cases hmem

theorem sizeOf_append_ge (front back : List Json) : sizeOf front ≤ sizeOf (front ++ back) := by
  induction front with
  | nil =>
    cases back with
    | nil => exact Nat.le_refl _
    | cons item rest =>
      simp only [List.nil_append, List.nil.sizeOf_spec, List.cons.sizeOf_spec]
      omega
  | cons item rest ih =>
    simp only [List.cons_append, List.cons.sizeOf_spec]
    omega

theorem sizeOf_others_lt {tag : String} {cases base : Fields} (h : HasCases schema tag cases base) :
    sizeOf (Json.object (otherKeywords base)) < sizeOf schema := by
  have hget : ∀ key, key ≠ "oneOf" → (otherKeywords base).get? key = base.get? key := by
    intro key hkey
    rw [otherKeywords, Fields.get?_erase, if_neg (Ne.symm hkey)]
  have hlist : ∀ guards, sizeOf (otherKeywords base) ≤
      sizeOf ((otherKeywords base).insert "allOf" (.array (conjuncts base ++ guards))) := by
    intro guards
    cases hall : base.get? "allOf" with
    | none => exact Nat.le_of_lt (Fields.sizeOf_insert_lt ((hget _ (by decide)).trans hall))
    | some value =>
      obtain ⟨given, rfl⟩ := h.listed value hall
      have hconjuncts : conjuncts base = given := by
        rw [conjuncts, hall]
        rfl
      refine Fields.sizeOf_insert_le ((hget _ (by decide)).trans hall) ?_
      have happend := sizeOf_append_ge given guards
      rw [hconjuncts, Json.array.sizeOf_spec, Json.array.sizeOf_spec]
      omega
  have hfresh : ∀ value, ((otherKeywords base).insert "allOf" value).get? casesKeyword = none := by
    intro value
    rw [Fields.get?_insert, if_neg (by decide), hget _ (by decide), h.fresh]
  rw [h.rewritten, withCases_eq, Json.object.sizeOf_spec, Json.object.sizeOf_spec]
  exact Nat.add_lt_add_left (Nat.lt_of_le_of_lt (hlist _) (Fields.sizeOf_insert_lt (hfresh _))) 1

theorem ordered_of_leads (hroot : root.ordered = true) (hschema : schema.ordered = true)
    (h : Leads root schema sub) : sub.ordered = true := by
  cases h with
  | inPlace h =>
    cases h with
    | reference href htarget => exact Json.ordered_of_resolve? hroot htarget
    | conjunct href hcases hsub => exact ordered_conjuncts hschema sub hsub
    | case hcases hbranch =>
      exact Json.ordered_of_get? (Json.ordered_of_get? hschema (get?_cases_of_hasCases hcases)) hbranch
    | others hcases => exact ordered_erase hcases.ordered "oneOf"
  | property href hcases hsub =>
    rcases mem_of_propertySchemaOf? hsub with ⟨properties, hproperties, hname⟩ | hextra
    · exact Json.ordered_of_get? (Json.ordered_of_get? hschema hproperties) hname
    · exact Json.ordered_of_get? hschema hextra
  | item href hcases hsub =>
    rcases mem_of_itemSchema? hsub with ⟨tuple, htuple, hmem⟩ | hextra | hitem
    · exact Json.ordered_array.1 (Json.ordered_of_get? hschema htuple) sub hmem
    · exact Json.ordered_of_get? hschema hextra
    · exact Json.ordered_of_get? hschema hitem

theorem allReferences_of_others {tag : String} {cases base : Fields}
    (h : HasCases schema tag cases base) :
    (Json.object (otherKeywords base)).allReferences ⊆ schema.allReferences := by
  have hmem : ∀ {key value}, (key, value) ∈ otherKeywords base →
      key ≠ "oneOf" ∧ base.get? key = some value := by
    intro key value hfield
    obtain ⟨hbase, hne⟩ := List.mem_filter.1 hfield
    exact ⟨by simpa using hne, Fields.get?_of_mem (Json.ordered_object.1 h.ordered).1 hbase⟩
  intro reference hr
  rw [Json.allReferences, Json.mem_allReferencesOfFields] at hr
  rcases hr with hr | ⟨⟨key, value⟩, hfield, hr⟩
  · exact absurd (hmem hr).2 (h.unreferenced reference)
  · obtain ⟨hne, hvalue⟩ := hmem hfield
    by_cases hall : key = "allOf"
    · subst hall
      obtain ⟨given, rfl⟩ := h.listed value hvalue
      have hlist : schema.get? "allOf" = some (.array (given ++
          cases.map fun entry => caseGuard tag entry.1 entry.2)) := by
        rw [h.rewritten, Json.get?, get?_withCases, if_neg (by decide), if_pos rfl, conjuncts, hvalue]
        rfl
      refine Json.allReferences_subset_of_get? hlist ?_
      rw [Json.allReferences, Json.mem_allReferencesOfItems] at hr ⊢
      obtain ⟨item, hitem, hr⟩ := hr
      exact ⟨item, List.mem_append_left _ hitem, hr⟩
    · have hcases : key ≠ casesKeyword := by
        rintro rfl
        rw [h.fresh] at hvalue
        cases hvalue
      have hget : schema.get? key = some value := by
        rw [h.rewritten, Json.get?, get?_withCases, if_neg (Ne.symm hcases), if_neg (Ne.symm hall),
          if_neg (Ne.symm hne), hvalue]
      exact Json.allReferences_subset_of_get? hget hr

theorem allReferences_of_leads (hschema : schema.allReferences ⊆ root.allReferences)
    (h : Leads root schema sub) : sub.allReferences ⊆ root.allReferences := by
  cases h with
  | inPlace h =>
    cases h with
    | reference href htarget => exact Json.allReferences_subset_of_resolve? htarget
    | conjunct href hcases hsub =>
      obtain ⟨items, hitems, hmem⟩ := mem_of_conjunct hsub
      exact fun _ hr => hschema (Json.allReferences_subset_of_mem (Fields.mem_of_get? hitems)
        (Json.allReferences_subset_of_item hmem hr))
    | case hcases hbranch =>
      exact fun _ hr => hschema (Json.allReferences_subset_of_get? (get?_cases_of_hasCases hcases)
        (Json.allReferences_subset_of_mem (Fields.mem_of_get? hbranch) hr))
    | others hcases => exact fun _ hr => hschema (allReferences_of_others hcases hr)
  | property href hcases hsub =>
    rcases mem_of_propertySchemaOf? hsub with ⟨properties, hproperties, hname⟩ | hextra
    · exact fun _ hr => hschema (Json.allReferences_subset_of_mem (Fields.mem_of_get? hproperties)
        (Json.allReferences_subset_of_mem (Fields.mem_of_get? hname) hr))
    · exact fun _ hr => hschema (Json.allReferences_subset_of_mem (Fields.mem_of_get? hextra) hr)
  | item href hcases hsub =>
    rcases mem_of_itemSchema? hsub with ⟨tuple, htuple, hmem⟩ | hextra | hitem
    · exact fun _ hr => hschema (Json.allReferences_subset_of_mem (Fields.mem_of_get? htuple)
        (Json.allReferences_subset_of_item hmem hr))
    · exact fun _ hr => hschema (Json.allReferences_subset_of_mem (Fields.mem_of_get? hextra) hr)
    · exact fun _ hr => hschema (Json.allReferences_subset_of_mem (Fields.mem_of_get? hitem) hr)

theorem ordered_of_reaches (hroot : root.ordered = true) (h : Reaches root schema) :
    schema.ordered = true := by
  induction h with
  | refl => exact hroot
  | tail _ hstep ih => exact ordered_of_leads hroot ih hstep

theorem allReferences_of_reaches (h : Reaches root schema) :
    schema.allReferences ⊆ root.allReferences := by
  induction h with
  | refl => exact fun _ => id
  | tail _ hstep ih => exact allReferences_of_leads ih hstep

/-! ## Kinds of readable schemas -/

theorem get?_of_hasCases {tag key : String} {cases base : Fields}
    (h : HasCases (.object keywords) tag cases base) (hall : key ≠ "allOf")
    (hcases : key ≠ casesKeyword) (halternatives : key ≠ "oneOf") :
    keywords.get? key = base.get? key := by
  have hrewritten : keywords = withCases tag cases base := Json.object.inj h.rewritten
  rw [hrewritten, get?_withCases, if_neg (Ne.symm hcases), if_neg (Ne.symm hall),
    if_neg (Ne.symm halternatives)]

theorem IsReadable.target {reference : String} (h : IsReadable root (.object keywords))
    (href : keywords.get? "$ref" = some (.string reference)) :
    ∃ target, targetOf root reference = .ok target ∧ root.resolve? reference = some target := by
  cases h with
  | reference hown hname htarget =>
    rename_i name target
    cases href.symm.trans hown
    refine ⟨target, htarget, resolve?_of_targetOf htarget ?_ ?_⟩
    · simp
    · rw [String.toList_append, List.mem_append, not_or]
      exact ⟨by decide, hname⟩
  | keywords hno => exact absurd href (hno reference)
  | cases hcases =>
    rw [get?_of_hasCases hcases (by decide) (by decide) (by decide)] at href
    exact absurd href (hcases.unreferenced reference)

theorem IsReadable.plain (h : IsReadable root (.object keywords))
    (href : ∀ reference, keywords.get? "$ref" ≠ some (.string reference))
    (hfresh : keywords.get? casesKeyword = none) : IsPlain keywords := by
  cases h with
  | reference hown => exact absurd hown (href _)
  | keywords _ _ hplain => exact hplain
  | cases hcases =>
    have hget := get?_cases_of_hasCases hcases
    rw [Json.get?, hfresh] at hget
    cases hget

theorem sizeOf_conjunct_lt (h : sub ∈ conjuncts keywords) :
    sizeOf sub < sizeOf (Json.object keywords) := by
  obtain ⟨items, hitems, hmem⟩ := mem_of_conjunct h
  have hlist : sizeOf (Json.array items) < sizeOf (Json.object keywords) :=
    Json.sizeOf_get?_lt hitems
  have hitem := List.sizeOf_lt_of_mem hmem
  rw [Json.array.sizeOf_spec] at hlist
  omega

theorem sizeOf_case_lt {tag value : String} {cases base : Fields}
    (h : HasCases schema tag cases base) (hbranch : cases.get? value = some sub) :
    sizeOf sub < sizeOf schema := by
  have htable : sizeOf (Json.object cases) < sizeOf schema :=
    Json.sizeOf_get?_lt (get?_cases_of_hasCases h)
  have hsub : sizeOf sub < sizeOf (Json.object cases) := Json.sizeOf_get?_lt hbranch
  omega

theorem get?_reference_of_hasCases {tag reference : String} {cases base : Fields}
    (h : HasCases (.object keywords) tag cases base) :
    keywords.get? "$ref" ≠ some (.string reference) := by
  rw [get?_of_hasCases h (by decide) (by decide) (by decide)]
  exact h.unreferenced reference

theorem not_hasCases_of_fresh {tag : String} {cases base : Fields}
    (hfresh : keywords.get? casesKeyword = none) : ¬ HasCases (.object keywords) tag cases base := by
  intro hcases
  have hget := get?_cases_of_hasCases hcases
  rw [Json.get?, hfresh] at hget
  cases hget

/-- Where a schema that is neither a reference nor has cases leads for the same instance. -/
theorem inPlace_of_keywords (h : InPlace root (.object keywords) sub)
    (href : ∀ reference, keywords.get? "$ref" ≠ some (.string reference))
    (hfresh : keywords.get? casesKeyword = none) : sub ∈ conjuncts keywords := by
  cases h with
  | reference hown => exact absurd hown (href _)
  | conjunct _ _ hsub => exact hsub
  | case hcases => exact absurd hcases (not_hasCases_of_fresh hfresh)
  | others hcases => exact absurd hcases (not_hasCases_of_fresh hfresh)

/-- Where such a schema leads at all. -/
theorem leads_of_keywords (h : Leads root (.object keywords) sub)
    (href : ∀ reference, keywords.get? "$ref" ≠ some (.string reference))
    (hfresh : keywords.get? casesKeyword = none) :
    sub ∈ conjuncts keywords ∨ (∃ name, propertySchemaOf? keywords name = some sub) ∨
      ∃ place, itemSchema? keywords place = some sub := by
  cases h with
  | inPlace h => exact .inl (inPlace_of_keywords h href hfresh)
  | property _ _ hsub => exact .inr (.inl ⟨_, hsub⟩)
  | item _ _ hsub => exact .inr (.inr ⟨_, hsub⟩)

/-- Where a reference leads. -/
theorem leads_of_reference {reference : String} (h : Leads root (.object keywords) sub)
    (href : keywords.get? "$ref" = some (.string reference)) :
    root.resolve? reference = some sub := by
  cases h with
  | inPlace h =>
    cases h with
    | reference hown htarget =>
      cases href.symm.trans hown
      exact htarget
    | conjunct hno => exact absurd href (hno reference)
    | case hcases => exact absurd href (get?_reference_of_hasCases hcases)
    | others hcases => exact absurd href (get?_reference_of_hasCases hcases)
  | property hno => exact absurd href (hno reference)
  | item hno => exact absurd href (hno reference)

/-- Where a schema with cases leads. -/
theorem leads_of_hasCases {tag : String} {cases base : Fields} (h : Leads root schema sub)
    (hcases : HasCases schema tag cases base) :
    (∃ value, cases.get? value = some sub) ∨
      ∃ tag' cases' base', HasCases schema tag' cases' base' ∧ sub = .object (otherKeywords base') := by
  have hsame : ∀ {tag' cases' base'}, HasCases schema tag' cases' base' → cases' = cases :=
    fun hother => Json.object.inj (Option.some.inj
      ((get?_cases_of_hasCases hother).symm.trans (get?_cases_of_hasCases hcases)))
  have hpresent : ∀ {keywords : Fields}, schema = .object keywords →
      keywords.get? casesKeyword ≠ none := by
    rintro keywords rfl hfresh
    exact not_hasCases_of_fresh hfresh hcases
  cases h with
  | inPlace h =>
    cases h with
    | reference href => exact absurd href (get?_reference_of_hasCases hcases)
    | conjunct _ hfresh => exact absurd hfresh (hpresent rfl)
    | case hother hbranch => exact .inl ⟨_, hsame hother ▸ hbranch⟩
    | others hother => exact .inr ⟨_, _, _, hother, rfl⟩
  | property _ hfresh => exact absurd hfresh (hpresent rfl)
  | item _ hfresh => exact absurd hfresh (hpresent rfl)

end

end ApiContract
