import ApiContract.Proofs.Schema.Clearance

/-! # The adequacy of evaluation and guard

Evaluation and guard together do what the reading of schemas with cases says.

* `cleared_of_satisfies`, `satisfies_of_cleared`: the two halves.
* `satisfies_iff_strictly`: roots under which the guard passes over nothing.
* `findings_and_guard_iff_satisfies`: the reading of a root schema. -/

set_option autoImplicit false

namespace ApiContract

open Relation

/-! ## The two halves -/

section

variable {root : Json} {known : List String}

/-- The schemas a root leads to are of the kinds the reading is for. -/
def AllReadable (root : Json) : Prop := ∀ schema, Reaches root schema → IsReadable root schema

/-- No schema leads to itself for the same instance. -/
def Acyclic (root : Json) : Prop :=
  ∀ schema, Reaches root schema → ¬ TransGen (InPlace root) schema schema

theorem acyclic_of_rank (rank : Json → Nat)
    (h : ∀ schema sub, Reaches root schema → InPlace root schema sub → rank sub < rank schema) :
    Acyclic root := by
  have hway : ∀ {schema sub}, Reaches root schema → TransGen (InPlace root) schema sub →
      Reaches root sub ∧ rank sub < rank schema := by
    intro schema sub hreaches hsteps
    induction hsteps with
    | single hstep => exact ⟨hreaches.tail (.inPlace hstep), h _ _ hreaches hstep⟩
    | tail _ hstep ih =>
      exact ⟨ih.1.tail (.inPlace hstep), Nat.lt_trans (h _ _ ih.1 hstep) ih.2⟩
  exact fun schema hreaches hcycle => Nat.lt_irrefl _ (hway hreaches hcycle).2

/-- What satisfies the reading passes evaluation and guard. -/
theorem cleared_of_satisfies (hroot : root.ordered = true) (hreadable : AllReadable root)
    {strict : Bool} {schema inst : Json} (h : Satisfies root hasCondition strict schema inst)
    (hreaches : Reaches root schema) (hinst : inst.ordered = true) (pool : List String) :
    Cleared root known pool strict schema inst := by
  induction h generalizing pool with
  | anything => exact cleared_bool.2 rfl
  | reference href hresolve _ ih =>
    obtain ⟨target, htarget, hfound⟩ := (hreadable _ hreaches).target href
    cases hresolve.symm.trans hfound
    exact (cleared_reference href htarget hresolve).2 fun _ =>
      ih (hreaches.tail (.inPlace (.reference href hresolve))) hinst _
  | keywords href hfresh hasserts _ _ _ ihAll ihMembers ihItems =>
    have hplain := (hreadable _ hreaches).plain href hfresh
    refine (cleared_keywords (ordered_of_reaches hroot hreaches) hinst href hfresh hplain).2
      ⟨hasserts, fun sub hsub => ?_, fun fields hf name value hmem sub hsub => ?_,
        fun items hi i item hitem sub hsub => ?_⟩
    · exact ihAll sub hsub (hreaches.tail (.inPlace (.conjunct href hfresh hsub))) hinst pool
    · have hvalue : value.ordered = true := by
        rw [hf] at hinst
        exact (Json.ordered_object.1 hinst).2 _ hmem
      exact ihMembers fields name value sub hf hmem hsub
        (hreaches.tail (.property href hfresh hsub)) hvalue known
    · have hvalue : item.ordered = true := by
        rw [hi] at hinst
        exact Json.ordered_array.1 hinst item (List.mem_of_getElem? hitem)
      exact ihItems items i item sub hi hitem hsub
        (hreaches.tail (.item href hfresh hsub)) hvalue known
  | selected hcases hvalue hbranch _ _ ihOthers ih =>
    refine (cleared_cases hcases (ordered_of_reaches hroot hreaches) hinst).2
      ⟨ihOthers (hreaches.tail (.inPlace (.others hcases))) hinst pool,
        fun _ => ⟨_, _, hvalue, hbranch⟩, fun other found hother hfound => ?_⟩
    cases hvalue.symm.trans hother
    cases hbranch.symm.trans hfound
    exact ih (hreaches.tail (.inPlace (.case hcases hbranch))) hinst pool
  | unselected hcases hnone _ ihOthers =>
    refine (cleared_cases hcases (ordered_of_reaches hroot hreaches) hinst).2
      ⟨ihOthers (hreaches.tail (.inPlace (.others hcases))) hinst pool,
        (by intro hstrict; cases hstrict), fun value branch hvalue hbranch => ?_⟩
    rw [hnone value hvalue] at hbranch
    cases hbranch

/-- Every reference that has been followed for this instance leads to the schema at hand. -/
def Followed (root : Json) (pool : List String) (schema : Json) : Prop :=
  ∀ reference ∈ root.references, reference ∉ pool →
    ∃ target, root.resolve? reference = some target ∧ ReflTransGen (InPlace root) target schema

theorem followed_all (root schema : Json) : Followed root root.references schema :=
  fun _ hmem hnot => absurd hmem hnot

theorem Followed.step {pool : List String} {schema sub : Json} (h : Followed root pool schema)
    (hstep : InPlace root schema sub) : Followed root pool sub := by
  intro reference hmem hnot
  obtain ⟨target, htarget, hway⟩ := h reference hmem hnot
  exact ⟨target, htarget, hway.tail hstep⟩

theorem Followed.reference {pool : List String} {schema target : Json} {reference : String}
    (h : Followed root pool schema) (htarget : root.resolve? reference = some target)
    (hstep : InPlace root schema target) :
    Followed root (withoutReference reference pool) target := by
  intro other hmem hnot
  by_cases hsame : other = reference
  · subst hsame
    exact ⟨target, htarget, .refl⟩
  · have hpool : other ∉ pool := by
      intro hin
      exact hnot (List.mem_filter.2 ⟨hin, by simpa using hsame⟩)
    exact (h.step hstep) other hmem hpool

/-- A reference that leads back to its own schema would be a cycle. -/
theorem Followed.mem_pool {pool : List String} {schema target : Json} {reference : String}
    (h : Followed root pool schema) (hacyclic : Acyclic root) (hreaches : Reaches root schema)
    (hmem : reference ∈ root.references) (htarget : root.resolve? reference = some target)
    (hstep : InPlace root schema target) : reference ∈ pool := by
  refine Decidable.byContradiction fun hnot => ?_
  obtain ⟨found, hfound, hway⟩ := h reference hmem hnot
  cases htarget.symm.trans hfound
  exact hacyclic schema hreaches (.head' hstep hway)

/-- What passes evaluation and guard satisfies the reading. -/
theorem satisfies_of_cleared (hroot : root.ordered = true) (hreadable : AllReadable root)
    (hacyclic : Acyclic root) (strict : Bool) (pool : List String) (schema inst : Json)
    (hreaches : Reaches root schema) (hinst : inst.ordered = true)
    (hfollowed : Followed root pool schema)
    (h : Cleared root root.references pool strict schema inst) :
    Satisfies root hasCondition strict schema inst := by
  have hordered := ordered_of_reaches hroot hreaches
  cases hreadable schema hreaches with
  | anything b =>
    cases cleared_bool.1 h
    exact .anything
  | reference href hname htarget =>
    rename_i keywords name target
    obtain ⟨found, htarget', hresolve⟩ := (hreadable _ hreaches).target href
    have hstep : InPlace root (.object keywords) found := .reference href hresolve
    have hown : (Json.object keywords).reference? = some ("#/components/schemas/" ++ name) := by
      rw [Json.reference?, Json.getString?, Json.get?, href]
      rfl
    have hmem := Json.mem_references.2
      (allReferences_of_reaches hreaches (Json.reference?_mem_allReferences hown))
    have hpool := hfollowed.mem_pool hacyclic hreaches hmem hresolve hstep
    exact .reference href hresolve (satisfies_of_cleared hroot hreadable hacyclic strict _ found
      inst (hreaches.tail (.inPlace hstep)) hinst (hfollowed.reference hresolve hstep)
      ((cleared_reference href htarget' hresolve).1 h hpool))
  | keywords href hfresh hplain =>
    rename_i keywords
    obtain ⟨hasserts, hall, hmembers, hitems⟩ :=
      (cleared_keywords hordered hinst href hfresh hplain).1 h
    refine .keywords href hfresh hasserts (fun sub hsub => ?_)
      (fun fields name value sub hf hmem hsub => ?_) (fun items i item sub hi hitem hsub => ?_)
    · have hstep : InPlace root (.object keywords) sub := .conjunct href hfresh hsub
      have hsmaller := sizeOf_conjunct_lt hsub
      exact satisfies_of_cleared hroot hreadable hacyclic _ pool sub inst
        (hreaches.tail (.inPlace hstep)) hinst (hfollowed.step hstep) (hall sub hsub)
    · subst hf
      have hinner := Json.sizeOf_member_lt hmem
      exact satisfies_of_cleared hroot hreadable hacyclic strict _ sub value
        (hreaches.tail (.property href hfresh hsub)) ((Json.ordered_object.1 hinst).2 _ hmem)
        (followed_all root sub) (hmembers fields rfl name value hmem sub hsub)
    · subst hi
      have hinner := Json.sizeOf_item_lt (List.mem_of_getElem? hitem)
      exact satisfies_of_cleared hroot hreadable hacyclic strict _ sub item
        (hreaches.tail (.item href hfresh hsub))
        (Json.ordered_array.1 hinst item (List.mem_of_getElem? hitem))
        (followed_all root sub) (hitems items rfl i item hitem sub hsub)
  | cases hcases =>
    rename_i tag cases base
    obtain ⟨hothers, hselects, hbranches⟩ := (cleared_cases hcases hordered hinst).1 h
    have hstepOthers : InPlace root schema (.object (otherKeywords base)) := .others hcases
    have hsmaller := sizeOf_others_lt hcases
    have hothersRead : Satisfies root hasCondition strict (.object (otherKeywords base)) inst :=
      satisfies_of_cleared hroot hreadable hacyclic strict pool _ inst
        (hreaches.tail (.inPlace hstepOthers)) hinst (hfollowed.step hstepOthers) hothers
    by_cases hselected : ∃ value branch, inst.getString? tag = some value ∧
        cases.get? value = some branch
    · obtain ⟨value, branch, hvalue, hbranch⟩ := hselected
      have hstep : InPlace root schema branch := .case hcases hbranch
      have hsmaller := sizeOf_case_lt hcases hbranch
      exact .selected hcases hvalue hbranch hothersRead
        (satisfies_of_cleared hroot hreadable hacyclic strict pool branch inst
          (hreaches.tail (.inPlace hstep)) hinst (hfollowed.step hstep)
          (hbranches value branch hvalue hbranch))
    · have hnone : ∀ value, inst.getString? tag = some value → cases.get? value = none := by
        intro value hvalue
        cases hbranch : cases.get? value with
        | none => rfl
        | some branch => exact absurd ⟨value, branch, hvalue, hbranch⟩ hselected
      cases strict with
      | true => exact absurd (hselects rfl) hselected
      | false => exact .unselected hcases hnone hothersRead
-- members and items are smaller instances, references leave the pool, everything else is a smaller schema
termination_by (sizeOf inst, pool.length, sizeOf schema)
decreasing_by
  all_goals subst_eqs
  all_goals first
    | exact Prod.Lex.right _ (Prod.Lex.left _ _ (length_withoutReference_lt hpool))
    | exact Prod.Lex.right _ (Prod.Lex.right _ hsmaller)
    | exact Prod.Lex.left _ _ hinner

end

/-! ## Conjuncts that are passed over -/

/-- The strict reading: a schema with cases always asks for one. -/
def SatisfiesStrictly (root schema inst : Json) : Prop :=
  Satisfies root (fun _ => false) true schema inst

/-- No conjunct has a condition beside its reference. -/
def NothingPassedOver (root : Json) : Prop :=
  ∀ keywords, Reaches root (.object keywords) → (Json.object keywords).reference? = none →
    Fields.get? casesKeyword keywords = none → ∀ sub ∈ conjuncts keywords, hasCondition sub = false

theorem Satisfies.congr {root : Json} {lapses others : Json → Bool}
    (hagree : ∀ keywords, Reaches root (.object keywords) →
      (Json.object keywords).reference? = none → Fields.get? casesKeyword keywords = none →
        ∀ sub ∈ conjuncts keywords, lapses sub = others sub)
    {strict : Bool} {schema inst : Json} (h : Satisfies root lapses strict schema inst)
    (hreaches : Reaches root schema) : Satisfies root others strict schema inst := by
  induction h with
  | anything => exact .anything
  | reference href htarget _ ih =>
    exact .reference href htarget (ih (hreaches.tail (.inPlace (.reference href htarget))))
  | keywords href hfresh hasserts _ _ _ ihAll ihMembers ihItems =>
    refine .keywords href hfresh hasserts (fun sub hsub => ?_)
      (fun fields name value sub hf hmem hsub => ?_) (fun items i item sub hi hitem hsub => ?_)
    · rw [← hagree _ hreaches (reference?_object.2 href) hfresh sub hsub]
      exact ihAll sub hsub (hreaches.tail (.inPlace (.conjunct href hfresh hsub)))
    · exact ihMembers fields name value sub hf hmem hsub
        (hreaches.tail (.property href hfresh hsub))
    · exact ihItems items i item sub hi hitem hsub (hreaches.tail (.item href hfresh hsub))
  | selected hcases hvalue hbranch _ _ ihOthers ih =>
    exact .selected hcases hvalue hbranch (ihOthers (hreaches.tail (.inPlace (.others hcases))))
      (ih (hreaches.tail (.inPlace (.case hcases hbranch))))
  | unselected hcases hnone _ ihOthers =>
    exact .unselected hcases hnone (ihOthers (hreaches.tail (.inPlace (.others hcases))))

theorem satisfies_iff_strictly {root inst : Json} (h : NothingPassedOver root) :
    Satisfies root hasCondition true root inst ↔ SatisfiesStrictly root root inst := by
  constructor
  · exact fun hs => hs.congr (fun keywords hr href hfresh sub hsub => h keywords hr href hfresh sub hsub)
      .refl
  · exact fun hs => hs.congr (fun keywords hr href hfresh sub hsub =>
      (h keywords hr href hfresh sub hsub).symm) .refl

/-! ## One reference -/

/-- A schema with cases behind a reference in `allOf`, with keywords beside the reference. -/
def referringRoot (beside : Fields) : Fields :=
  [("allOf", .array [.object (("$ref", .string "#/components/schemas/Pet") :: beside)]),
    ("components", .object [("schemas", .object
      [("Pet", .object (withCases "kind" taggedCases taggedAlternatives))])])]

/-- What the root leads to. -/
inductive FromReferringRoot (beside : Fields) : Json → Prop where
  | root : FromReferringRoot beside (.object (referringRoot beside))
  | entry : FromReferringRoot beside
      (.object (("$ref", .string "#/components/schemas/Pet") :: beside))
  | schema : FromReferringRoot beside (.object (withCases "kind" taggedCases taggedAlternatives))
  | others {tag : String} {cases base : Fields}
    (h : HasCases (.object (withCases "kind" taggedCases taggedAlternatives)) tag cases base) :
    FromReferringRoot beside (.object (otherKeywords base))
  | branch : FromReferringRoot beside (.object [("properties", .object
      [("kind", .object [("const", .string "a")])]), ("type", .string "object")])
  | tag : FromReferringRoot beside (.object [("const", .string "a")])

section

variable {beside : Fields}

theorem taggedAlternatives_hasCases :
    HasCases (.object (withCases "kind" taggedCases taggedAlternatives)) "kind" taggedCases
      taggedAlternatives where
  rewritten := rfl
  tagged := rfl
  ordered := taggedAlternatives_ordered
  unreferenced := taggedAlternatives_not_reference
  fresh := by decide
  listed := by simp [taggedAlternatives, Fields.get?_cons]

/-- Other keywords that come with the same schema have nothing to lead on with. -/
theorem get?_others_tagged {tag key : String} {cases base : Fields}
    (h : HasCases (.object (withCases "kind" taggedCases taggedAlternatives)) tag cases base)
    (hkey : key ≠ "allOf") (hdiscriminator : key ≠ "discriminator") :
    (otherKeywords base).get? key = none := by
  rw [otherKeywords, Fields.get?_erase]
  by_cases halternatives : "oneOf" = key
  · rw [if_pos halternatives]
  · rw [if_neg halternatives]
    by_cases hcases : key = casesKeyword
    · rw [hcases, h.fresh]
    · rw [← get?_of_hasCases h hkey hcases (Ne.symm halternatives), get?_withCases,
        if_neg (Ne.symm hcases), if_neg (Ne.symm hkey), if_neg halternatives, taggedAlternatives,
        Fields.get?_cons, if_neg (Ne.symm hdiscriminator), Fields.get?_cons, if_neg halternatives]
      rfl

theorem cases_tagged {tag : String} {cases base : Fields}
    (h : HasCases (.object (withCases "kind" taggedCases taggedAlternatives)) tag cases base) :
    cases = taggedCases := by
  have hgiven := get?_cases_of_hasCases h
  have hown := get?_cases_of_hasCases taggedAlternatives_hasCases
  exact Json.object.inj (Option.some.inj (hgiven.symm.trans hown))

theorem conjuncts_others_tagged {tag : String} {cases base : Fields}
    (h : HasCases (.object (withCases "kind" taggedCases taggedAlternatives)) tag cases base) :
    conjuncts (otherKeywords base) = [] := by
  have hsame : conjuncts (withCases tag cases base) =
      conjuncts (withCases "kind" taggedCases taggedAlternatives) := by
    rw [Json.object.inj h.rewritten]
  have hlength := congrArg List.length hsame
  rw [conjuncts_withCases, conjuncts_withCases, cases_tagged h, List.length_append,
    List.length_append, List.length_map, List.length_map] at hlength
  have hnone : (conjuncts taggedAlternatives).length = 0 := rfl
  have hempty : conjuncts base = [] := List.eq_nil_of_length_eq_zero (by omega)
  rw [otherKeywords, conjuncts_erase, hempty]

theorem propertySchemaOf?_of_absent {keywords : Fields} {name : String}
    (hproperties : keywords.get? "properties" = none)
    (hextra : keywords.get? "additionalProperties" = none) :
    propertySchemaOf? keywords name = none := by
  rw [propertySchemaOf?, declaredProperty?, hproperties, hextra]
  rfl

theorem itemSchema?_of_absent {keywords : Fields} {place : Nat}
    (hitems : keywords.get? "items" = none) : itemSchema? keywords place = none := by
  rw [itemSchema?, hitems]
  rfl

/-- The schemas the root leads to lead to no others. -/
theorem FromReferringRoot.leads {schema sub : Json} (h : FromReferringRoot beside schema)
    (hstep : Leads (.object (referringRoot beside)) schema sub) : FromReferringRoot beside sub := by
  cases h with
  | root =>
    rcases leads_of_keywords hstep (fun reference => by simp [referringRoot, Fields.get?_cons]) rfl
      with hsub | ⟨name, hsub⟩ | ⟨place, hsub⟩
    · rw [List.mem_singleton.1 hsub]
      exact .entry
    · rw [propertySchemaOf?_of_absent rfl rfl] at hsub
      cases hsub
    · rw [itemSchema?_of_absent rfl] at hsub
      cases hsub
  | entry =>
    have htarget := leads_of_reference hstep rfl
    cases htarget
    exact .schema
  | schema =>
    rcases leads_of_hasCases hstep taggedAlternatives_hasCases with
      ⟨value, hsub⟩ | ⟨tag, cases, base, hcases, rfl⟩
    · rw [taggedCases, Fields.get?_cons] at hsub
      split at hsub
      · cases hsub
        exact .branch
      · cases hsub
    · exact .others hcases
  | others hcases =>
    rcases leads_of_keywords hstep
      (fun reference => by rw [get?_others_tagged hcases (by decide) (by decide)]; simp)
      (get?_others_tagged hcases (by decide) (by decide)) with hsub | ⟨name, hsub⟩ | ⟨place, hsub⟩
    · rw [conjuncts_others_tagged hcases] at hsub
      cases hsub
    · rw [propertySchemaOf?_of_absent (get?_others_tagged hcases (by decide) (by decide))
        (get?_others_tagged hcases (by decide) (by decide))] at hsub
      cases hsub
    · rw [itemSchema?_of_absent (get?_others_tagged hcases (by decide) (by decide))] at hsub
      cases hsub
  | branch =>
    rcases leads_of_keywords hstep (fun reference => by simp [Fields.get?_cons]) rfl
      with hsub | ⟨name, hsub⟩ | ⟨place, hsub⟩
    · cases hsub
    · rcases mem_of_propertySchemaOf? hsub with ⟨properties, hproperties, hname⟩ | hextra
      · cases hproperties
        rw [Fields.get?_cons] at hname
        split at hname
        · cases hname
          exact .tag
        · cases hname
      · cases hextra
    · rw [itemSchema?_of_absent rfl] at hsub
      cases hsub
  | tag =>
    rcases leads_of_keywords hstep (fun reference => by simp [Fields.get?_cons]) rfl
      with hsub | ⟨name, hsub⟩ | ⟨place, hsub⟩
    · cases hsub
    · rw [propertySchemaOf?_of_absent rfl rfl] at hsub
      cases hsub
    · rw [itemSchema?_of_absent rfl] at hsub
      cases hsub

theorem fromReferringRoot {schema : Json} (h : Reaches (.object (referringRoot beside)) schema) :
    FromReferringRoot beside schema := by
  induction h with
  | refl => exact .root
  | tail _ hstep ih => exact ih.leads hstep

theorem referringRoot_readable : AllReadable (.object (referringRoot beside)) := by
  intro schema hreaches
  cases fromReferringRoot hreaches with
  | root =>
    exact .keywords (fun reference => by simp [referringRoot, Fields.get?_cons]) rfl
      (isPlain_of_keys (by simp [referringRoot, furtherKeywords]))
  | entry =>
    have href : Fields.get? "$ref" (("$ref", .string "#/components/schemas/Pet") :: beside) =
        some (.string ("#/components/schemas/" ++ "Pet")) := rfl
    exact .reference href (by decide) rfl
  | schema => exact .cases taggedAlternatives_hasCases
  | others hcases =>
    have habsent : ∀ key ∈ "$ref" :: casesKeyword :: furtherKeywords,
        key ≠ "allOf" ∧ key ≠ "discriminator" := by decide
    have hnone := fun key hkey =>
      get?_others_tagged hcases (habsent key hkey).1 (habsent key hkey).2
    refine .keywords (fun reference => ?_) (hnone _ (by decide)) fun key hkey =>
      hnone key (List.mem_cons_of_mem _ (List.mem_cons_of_mem _ hkey))
    rw [hnone _ (by decide)]
    simp
  | branch =>
    exact .keywords (fun reference => by simp [Fields.get?_cons]) rfl
      (isPlain_of_keys (by simp [furtherKeywords]))
  | tag =>
    exact .keywords (fun reference => by simp [Fields.get?_cons]) rfl
      (isPlain_of_keys (by simp [furtherKeywords]))

/-- How far a schema that the root leads to is from the end. -/
def distance (schema : Json) : Nat :=
  if schema.reference?.isSome then 2
  else if (schema.get? casesKeyword).isSome then 1
  else if (schema.get? "components").isSome then 3
  else 0

theorem referringRoot_acyclic : Acyclic (.object (referringRoot beside)) := by
  refine acyclic_of_rank distance fun schema sub hreaches hstep => ?_
  cases fromReferringRoot hreaches with
  | root =>
    have hsub := inPlace_of_keywords hstep
      (fun reference => by simp [referringRoot, Fields.get?_cons]) rfl
    rw [List.mem_singleton.1 hsub]
    exact (by decide : 2 < 3)
  | entry =>
    have htarget := leads_of_reference (.inPlace hstep) rfl
    cases htarget
    exact (by decide : 1 < 2)
  | schema =>
    have hown : distance (.object (withCases "kind" taggedCases taggedAlternatives)) = 1 := rfl
    rw [hown]
    rcases leads_of_hasCases (.inPlace hstep) taggedAlternatives_hasCases with
      ⟨value, hsub⟩ | ⟨tag, cases, base, hcases, rfl⟩
    · rw [taggedCases, Fields.get?_cons] at hsub
      split at hsub
      · cases hsub
        exact (by decide : 0 < 1)
      · cases hsub
    · have hnone : ∀ key ∈ ["$ref", casesKeyword, "components"],
          (otherKeywords base).get? key = none := by
        have hkeys : ∀ key ∈ ["$ref", casesKeyword, "components"],
            key ≠ "allOf" ∧ key ≠ "discriminator" := by decide
        exact fun key hkey => get?_others_tagged hcases (hkeys key hkey).1 (hkeys key hkey).2
      simp [distance, Json.reference?, Json.getString?, Json.get?, hnone]
  | others hcases =>
    have hsub := inPlace_of_keywords hstep
      (fun reference => by rw [get?_others_tagged hcases (by decide) (by decide)]; simp)
      (get?_others_tagged hcases (by decide) (by decide))
    rw [conjuncts_others_tagged hcases] at hsub
    cases hsub
  | branch =>
    cases inPlace_of_keywords hstep (fun reference => by simp [Fields.get?_cons]) rfl
  | tag =>
    cases inPlace_of_keywords hstep (fun reference => by simp [Fields.get?_cons]) rfl

theorem referringRoot_ordered (hbeside : (Json.object
    (("$ref", .string "#/components/schemas/Pet") :: beside)).ordered = true) :
    (Json.object (referringRoot beside)).ordered = true := by
  have hcases : (Json.object (withCases "kind" taggedCases taggedAlternatives)).ordered = true :=
    ordered_withCases taggedAlternatives_ordered taggedCases_ordered
  rw [referringRoot, Json.ordered_object, List.forall_mem_cons, List.forall_mem_singleton]
  refine ⟨Fields.ordered_of_keys rfl (by decide : ["allOf", "components"].Pairwise (· < ·)), ?_, ?_⟩
  · rw [Json.ordered_array, List.forall_mem_singleton]
    exact hbeside
  · rw [Json.ordered_object, List.forall_mem_singleton, Json.ordered_object,
      List.forall_mem_singleton]
    exact ⟨List.pairwise_singleton .., List.pairwise_singleton .., hcases⟩

/-- An empty object satisfies the other keywords, whatever may be passed over. -/
theorem otherKeywords_satisfied (root : Json) (lapses : Json → Bool) (strict : Bool) :
    Satisfies root lapses strict (.object (otherKeywords taggedAlternatives)) (.object []) := by
  refine .keywords (fun reference => ?_) (by decide) (fun key value hvalue => ?_)
    (fun sub hsub => ?_) (fun fields name value sub hf hmem => ?_) (fun items i item sub hi => ?_)
  · rw [get?_others_tagged taggedAlternatives_hasCases (by decide) (by decide)]
    simp
  · have hkey : key ∈ ["discriminator"] :=
      List.mem_map_of_mem (f := Prod.fst) (Fields.mem_of_get? hvalue)
    rw [List.mem_singleton.1 hkey]
    exact Assertion.holds_of_not_mem (by decide)
  · rw [conjuncts_others_tagged taggedAlternatives_hasCases] at hsub
    cases hsub
  · cases hf
    cases hmem
  · cases hi

theorem referringRoot_satisfied (lapses : Json → Bool) (hlapses : lapses (.object
    (("$ref", .string "#/components/schemas/Pet") :: beside)) = true) :
    Satisfies (.object (referringRoot beside)) lapses true (.object (referringRoot beside))
      (.object []) := by
  refine .keywords (fun reference => by simp [referringRoot, Fields.get?_cons]) rfl
    (fun key value hvalue => ?_) (fun sub hsub => ?_) (fun fields name value sub hf hmem => ?_)
    (fun items i item sub hi => ?_)
  · have hkey : key ∈ ["allOf", "components"] :=
      List.mem_map_of_mem (f := Prod.fst) (Fields.mem_of_get? hvalue)
    have hkeys : ∀ key ∈ ["allOf", "components"], key ∉ Assertion.keywords := by decide
    exact Assertion.holds_of_not_mem (hkeys key hkey)
  · rw [List.mem_singleton.1 hsub, hlapses]
    exact .reference rfl rfl (.unselected taggedAlternatives_hasCases emptyObject_unselected
      (otherKeywords_satisfied _ _ _))
  · cases hf
    cases hmem
  · cases hi

theorem referringRoot_not_satisfiedStrictly :
    ¬ SatisfiesStrictly (.object (referringRoot beside)) (.object (referringRoot beside))
      (.object []) := by
  have hschema : ¬ SatisfiesStrictly (.object (referringRoot beside))
      (.object (withCases "kind" taggedCases taggedAlternatives)) (.object []) := by
    intro h
    cases h with
    | reference href => exact get?_reference_of_hasCases taggedAlternatives_hasCases href
    | keywords _ hfresh => exact not_hasCases_of_fresh hfresh taggedAlternatives_hasCases
    | selected _ hvalue => cases hvalue
  have hentry : ¬ SatisfiesStrictly (.object (referringRoot beside))
      (.object (("$ref", .string "#/components/schemas/Pet") :: beside)) (.object []) := by
    intro h
    cases h with
    | reference href htarget h =>
      cases href
      cases htarget
      exact hschema h
    | keywords hno => exact hno _ rfl
    | selected hcases => exact get?_reference_of_hasCases hcases rfl
  intro h
  cases h with
  | reference href => simp [referringRoot, Fields.get?_cons] at href
  | keywords _ _ _ hall => exact hentry (hall _ (List.mem_singleton.2 rfl))
  | selected hcases => exact not_hasCases_of_fresh rfl hcases

end

/-! ## Adequacy -/

/-- Evaluation and guard together do what the reading says: a schema with cases asks for one, but below
conjuncts that the guard passes over. If there are none of these, it always does. -/
theorem findings_and_guard_iff_satisfies {root inst : Json} (hroot : root.ordered = true)
    (hinst : inst.ordered = true) (hreadable : AllReadable root) (hacyclic : Acyclic root)
    (name : String) :
    ((Evaluation.findings root root inst = [] ∧ guardViolations root name inst = []) ↔
      Satisfies root hasCondition true root inst) ∧
    (NothingPassedOver root →
      ((Evaluation.findings root root inst = [] ∧ guardViolations root name inst = []) ↔
        SatisfiesStrictly root root inst)) := by
  have hcleared : (Evaluation.findings root root inst = [] ∧ guardViolations root name inst = []) ↔
      Cleared root root.references root.references true root inst := by
    rw [guardViolations, guardWith_eq_nil_iff, Cleared, Evaluation.Passes, Evaluation.findings]
    simp
  have hreading : Cleared root root.references root.references true root inst ↔
      Satisfies root hasCondition true root inst :=
    ⟨satisfies_of_cleared hroot hreadable hacyclic true _ root inst .refl hinst (followed_all root root),
      fun h => cleared_of_satisfies hroot hreadable h .refl hinst _⟩
  rw [hcleared, hreading]
  exact ⟨Iff.rfl, satisfies_iff_strictly⟩

theorem referringRoot_findings_and_guard_iff :
    ((Evaluation.findings (.object (referringRoot [])) (.object (referringRoot [])) (.object []) = [] ∧
        guardViolations (.object (referringRoot [])) "#/x" (.object []) = []) ↔
      Satisfies (.object (referringRoot [])) hasCondition true (.object (referringRoot []))
        (.object [])) ∧
    (NothingPassedOver (.object (referringRoot [])) →
      ((Evaluation.findings (.object (referringRoot [])) (.object (referringRoot [])) (.object []) = [] ∧
          guardViolations (.object (referringRoot [])) "#/x" (.object []) = []) ↔
        SatisfiesStrictly (.object (referringRoot [])) (.object (referringRoot [])) (.object []))) :=
  findings_and_guard_iff_satisfies (referringRoot_ordered (by decide)) rfl referringRoot_readable
    referringRoot_acyclic "#/x"

/-- With a condition beside the reference an empty object passes, though it selects no case. -/
theorem referringRoot_passes_unselected :
    (Json.object (referringRoot [("if", .bool true)])).ordered = true ∧
    AllReadable (.object (referringRoot [("if", .bool true)])) ∧
    Acyclic (.object (referringRoot [("if", .bool true)])) ∧
    Evaluation.findings (.object (referringRoot [("if", .bool true)]))
      (.object (referringRoot [("if", .bool true)])) (.object []) = [] ∧
    guardViolations (.object (referringRoot [("if", .bool true)])) "#/x" (.object []) = [] ∧
    ¬ SatisfiesStrictly (.object (referringRoot [("if", .bool true)]))
      (.object (referringRoot [("if", .bool true)])) (.object []) := by
  have hroot : (Json.object (referringRoot [("if", .bool true)])).ordered = true :=
    referringRoot_ordered (by decide)
  obtain ⟨hpasses, hguard⟩ := cleared_of_satisfies hroot referringRoot_readable
    (referringRoot_satisfied hasCondition rfl) .refl rfl
    (Json.object (referringRoot [("if", .bool true)])).references
  refine ⟨hroot, referringRoot_readable, referringRoot_acyclic, hpasses, ?_,
    referringRoot_not_satisfiedStrictly⟩
  rw [guardViolations, guardWith_eq_nil_iff]
  exact hguard rfl

end ApiContract
