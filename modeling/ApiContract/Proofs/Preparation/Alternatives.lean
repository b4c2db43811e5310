import ApiContract.Proofs.Preparation.Tagging

/-! # Alternatives that are told apart by a tag

Where no two alternatives have a tag in common, the tag of a value says which alternative it can satisfy.
Then the cases that replace the alternatives accept exactly what exactly one of these accepts.

* `DistinctAlternatives`: alternatives with tags of their own.
* `accepts_alternativesRoot_iff`, `accepts_casesRoot_iff`: what the alternatives accept, and their cases.
* `CompiledSchema.accepts_cases_iff`: cases and guard accept what the alternatives accept. -/

set_option autoImplicit false

namespace ApiContract

/-! ## Tags of their own -/

/-- Alternatives with tags of their own, which neither have discriminators nor lead to any. -/
structure DistinctAlternatives (root components : Json) (tag : String) (texts : Json → List String)
    (branches : List Json) : Prop where
  alternative : ∀ branch ∈ branches, IsAlternative components tag (texts branch) branch
  undiscriminated : ∀ branch ∈ branches, Undiscriminated branch
  references : ∀ branch ∈ branches, ∀ reference, Needs root branch reference →
    ∃ target, KeptReference components reference target
  disjoint : branches.Pairwise fun a b => ∀ text ∈ texts a, text ∉ texts b

/-! ## The schema and its cases -/

/-- A schema of alternatives with a discriminator and nothing else. -/
def discriminated (discriminator : Json) (branches : List Json) : Fields :=
  [("discriminator", discriminator), ("oneOf", .array branches)]

section

variable {document components discriminator inst : Json} {tag : String} {texts : Json → List String}
  {branches : List Json} {cases : Fields}

theorem nodeWithCases_discriminated (htag : discriminator.getString? "propertyName" = some tag)
    (hmapping : discriminator.get? "mapping" = none)
    (hbranches : ∀ branch ∈ branches, Undiscriminated branch)
    (hcases : addBranches document tag [] [] branches = some cases) :
    nodeWithCases document (.object (discriminated discriminator branches)) =
      .object (withCases tag cases (discriminated (nodeWithCases document discriminator) branches)) := by
  have hwalk : nodeWithCases document (.array branches) = .array branches := by
    rw [nodeWithCases, itemsWithCases_eq_map, List.map_congr_left fun branch hbranch =>
      nodeWithCases_of_undiscriminated (hbranches branch hbranch), List.map_id']
  have hfields : fieldsWithCases document (discriminated discriminator branches) =
      discriminated (nodeWithCases document discriminator) branches := by
    rw [discriminated, fieldsWithCases, fieldsWithCases, fieldsWithCases, if_neg (by decide),
      if_neg (by decide), hwalk, discriminated]
  have hname : discriminatorTag? (discriminated (nodeWithCases document discriminator) branches) =
      some tag := (getString?_nodeWithCases (by decide)).trans htag
  have hnone : discriminatorMapping (discriminated (nodeWithCases document discriminator) branches) = [] := by
    have hget : (nodeWithCases document discriminator).get? "mapping" = none := by
      rw [get?_nodeWithCases (by decide), hmapping, Option.map_none]
    show (((nodeWithCases document discriminator).get? "mapping").bind Json.fields?).getD [] = []
    rw [hget]
    rfl
  have htable : discriminatorCases? document tag [] branches = some cases := hcases
  have halternatives : Fields.get? "oneOf" (discriminated (nodeWithCases document discriminator) branches) =
      some (.array branches) := rfl
  rw [nodeWithCases, hfields, schemaWithCases, hname, halternatives, hnone]
  simp only [htable]

/-- The components can be put beside the keywords before or after the cases. -/
theorem rootOf_withCases {base : Fields} (hbase : (Json.object base).ordered = true)
    (hcases : (Json.object cases).ordered = true) (hcomponents : components.ordered = true) :
    CompiledSchema.rootOf (.object (withCases tag cases base)) (some components) =
      .object (withCases tag cases (base.insertIfAbsent "components" components)) := by
  have hconjuncts : conjuncts (base.insertIfAbsent "components" components) = conjuncts base := by
    rw [conjuncts, Fields.get?_insertIfAbsent, if_neg (by decide), conjuncts]
  have hwider : (Json.object (base.insertIfAbsent "components" components)).ordered = true :=
    ordered_insertIfAbsent hbase hcomponents
  rw [CompiledSchema.rootOf]
  refine congrArg Json.object (Fields.Ordered.ext ?_ ?_ fun key => ?_)
  · exact ((Json.ordered_object.1 (ordered_withCases hbase hcases)).1).insertIfAbsent _ _
  · exact (Json.ordered_object.1 (ordered_withCases hwider hcases)).1
  · rw [Fields.get?_insertIfAbsent, get?_withCases, get?_withCases, get?_withCases,
      Fields.get?_insertIfAbsent, hconjuncts]
    by_cases hkey : "components" = key
    · subst hkey
      simp [casesKeyword]
    · rw [if_neg hkey, if_neg hkey]

end

/-! ## The roots -/

/-- The keywords of the alternatives as a root schema, with the components beside them. -/
def rootKeywords (components discriminator : Json) (branches : List Json) : Fields :=
  [("components", components), ("discriminator", discriminator), ("oneOf", .array branches)]

/-- The alternatives as a root schema. -/
def alternativesRoot (components discriminator : Json) (branches : List Json) : Json :=
  .object (rootKeywords components discriminator branches)

/-- The same root schema with cases in place of the alternatives. -/
def casesRoot (tag : String) (cases : Fields) (components discriminator : Json) (branches : List Json) :
    Json :=
  .object (withCases tag cases (rootKeywords components discriminator branches))

section

variable {document components discriminator inst : Json} {tag : String} {texts : Json → List String}
  {branches : List Json} {cases : Fields}

theorem rootOf_discriminated (components discriminator : Json) (branches : List Json) :
    CompiledSchema.rootOf (.object (discriminated discriminator branches)) (some components) =
      alternativesRoot components discriminator branches := rfl

theorem ordered_discriminated (hdiscriminator : discriminator.ordered = true)
    (hbranches : ∀ branch ∈ branches, branch.ordered = true) :
    (Json.object (discriminated discriminator branches)).ordered = true := by
  rw [Json.ordered_object, discriminated, List.forall_mem_cons, List.forall_mem_singleton,
    Json.ordered_array]
  exact ⟨Fields.ordered_of_keys rfl (by decide : ["discriminator", "oneOf"].Pairwise (· < ·)),
    hdiscriminator, hbranches⟩

theorem rootOf_cases (hdiscriminator : discriminator.ordered = true)
    (hbranches : ∀ branch ∈ branches, branch.ordered = true)
    (hcases : (Json.object cases).ordered = true) (hcomponents : components.ordered = true) :
    CompiledSchema.rootOf (.object (withCases tag cases (discriminated discriminator branches)))
      (some components) = casesRoot tag cases components discriminator branches :=
  rootOf_withCases (ordered_discriminated hdiscriminator hbranches) hcases hcomponents

theorem ordered_alternativesRoot (hcomponents : components.ordered = true)
    (hdiscriminator : discriminator.ordered = true)
    (hbranches : ∀ branch ∈ branches, branch.ordered = true) :
    (alternativesRoot components discriminator branches).ordered = true := by
  have hroot : (Json.object ((discriminated discriminator branches).insertIfAbsent "components"
      components)).ordered = true :=
    ordered_insertIfAbsent (ordered_discriminated hdiscriminator hbranches) hcomponents
  exact hroot

theorem rootKeywords_not_reference (reference : String) :
    (rootKeywords components discriminator branches).get? "$ref" ≠ some (.string reference) := by
  simp [rootKeywords, Fields.get?_cons]

/-- A schema among the alternatives brings no reference of its own. -/
theorem allReferences_subset_of_branch {branch : Json} (h : branch ∈ branches) :
    branch.allReferences ⊆ (alternativesRoot components discriminator branches).allReferences := by
  have hlist : (alternativesRoot components discriminator branches).get? "oneOf" =
      some (.array branches) := rfl
  exact fun _ hmem =>
    Json.allReferences_subset_of_get? hlist (Json.allReferences_subset_of_item h hmem)

/-- A schema among the cases brings no reference of its own. -/
theorem allReferences_subset_of_case {text : String} {branch : Json}
    (h : cases.get? text = some branch) :
    branch.allReferences ⊆ (casesRoot tag cases components discriminator branches).allReferences := by
  have htable : (casesRoot tag cases components discriminator branches).get? casesKeyword =
      some (.object cases) := (get?_withCases casesKeyword).trans (if_pos rfl)
  exact fun _ hmem => Json.allReferences_subset_of_get? htable
    (Json.allReferences_subset_of_mem (Fields.mem_of_get? h) hmem)

theorem get?_components_casesRoot :
    (casesRoot tag cases components discriminator branches).get? "components" = some components :=
  (get?_withCases "components").trans rfl

theorem targetOf_alternativesRoot {reference : String} {target : Json}
    (h : KeptReference components reference target) :
    targetOf (alternativesRoot components discriminator branches) reference = .ok target :=
  targetOf_of_resolve? h.plain (h.resolve? rfl)

/-- References that are kept lead to the same schema where the components have cases. -/
theorem targetOf_casesRoot {reference : String} {target : Json}
    (h : KeptReference components reference target) :
    (casesRoot tag cases (nodeWithCases document components) discriminator branches).resolve? reference =
        some target ∧
      targetOf (casesRoot tag cases (nodeWithCases document components) discriminator branches) reference =
        .ok target := by
  have hresolve : (casesRoot tag cases (nodeWithCases document components) discriminator
      branches).resolve? reference = some target := h.resolve?_withCases get?_components_casesRoot
  exact ⟨hresolve, targetOf_of_resolve? h.plain hresolve⟩

theorem reachesDiscriminator_of_cases {keywords : Fields} {table : Json}
    (h : keywords.get? casesKeyword = some table) : reachesDiscriminator (.object keywords) = true := by
  have hkey : (Fields.erase "components" keywords).hasKey casesKeyword = true := by
    rw [Fields.hasKey_iff, Fields.get?_erase, if_neg (by decide)]
    exact ⟨table, h⟩
  rw [reachesDiscriminator, withoutComponents, searchCases, if_pos hkey]
  rfl

/-! ## What is accepted -/

/-- Of alternatives with tags of their own exactly one accepts a value if any does. -/
theorem accepts_alternativesRoot_iff (hcomponents : components.ordered = true)
    (hdiscriminator : discriminator.ordered = true)
    (hbranches : ∀ branch ∈ branches, branch.ordered = true) (hinst : inst.ordered = true)
    (h : DistinctAlternatives (alternativesRoot components discriminator branches) components tag texts
      branches) :
    Evaluation.Accepts (alternativesRoot components discriminator branches)
        (alternativesRoot components discriminator branches) inst ↔
      ∃ text branch, inst.getString? tag = some text ∧ (branch ∈ branches ∧ text ∈ texts branch) ∧
        Evaluation.Accepts (alternativesRoot components discriminator branches) branch inst := by
  have hroot := ordered_alternativesRoot hcomponents hdiscriminator hbranches
  have htag : ∀ branch ∈ branches,
      Evaluation.Accepts (alternativesRoot components discriminator branches) branch inst →
        ∃ text ∈ texts branch, inst.getString? tag = some text :=
    fun branch hbranch => (h.alternative branch hbranch).exists_tag hroot rfl (hbranches branch hbranch)
      (allReferences_subset_of_branch hbranch) hinst
  have hone : branches.Pairwise fun a b =>
      Evaluation.Accepts (alternativesRoot components discriminator branches) a inst →
        ¬ Evaluation.Accepts (alternativesRoot components discriminator branches) b inst := by
    refine h.disjoint.imp_of_mem fun ha hb hdisjoint haccepts hother => ?_
    obtain ⟨text, htext, hheld⟩ := htag _ ha haccepts
    obtain ⟨other, hmem, hsame⟩ := htag _ hb hother
    cases hheld.symm.trans hsame
    exact hdisjoint text htext hmem
  rw [alternativesRoot, Evaluation.accepts_keywords hroot hinst rootKeywords_not_reference,
    fulfils_of_inPlace_or_silent (by simp [rootKeywords, inPlaceKeywords, silentKeys])]
  constructor
  · rintro ⟨-, -, halternatives, -⟩
    obtain ⟨branch, hbranch, haccepts⟩ :=
      (exactlyOne_iff_exists hone).1 (halternatives (.array branches) rfl)
    obtain ⟨text, htext, hheld⟩ := htag branch hbranch haccepts
    exact ⟨text, branch, hheld, ⟨hbranch, htext⟩, haccepts⟩
  · rintro ⟨text, branch, -, ⟨hbranch, -⟩, haccepts⟩
    refine ⟨fun _ hvalue => ?all, fun _ hvalue => ?any, fun _ hvalue => ?one, fun _ hvalue => ?not,
      fun _ hvalue => ?condition⟩ <;> cases hvalue
    case one => exact (exactlyOne_iff_exists hone).2 ⟨branch, hbranch, haccepts⟩

/-- Cases without discriminators accept what the one accepts that the tag selects. -/
theorem accepts_casesRoot_iff (name : String)
    (hordered : (alternativesRoot components discriminator branches).ordered = true)
    (hcases : (Json.object cases).ordered = true) (hinst : inst.ordered = true)
    (htag : discriminator.getString? "propertyName" = some tag)
    (hplain : ∀ text branch, cases.get? text = some branch → Undiscriminated branch ∧
      LeadsToUndiscriminated (casesRoot tag cases components discriminator branches) branch) :
    CompiledSchema.accepts ⟨name, casesRoot tag cases components discriminator branches,
        reachesDiscriminator (casesRoot tag cases components discriminator branches)⟩ inst = true ↔
      ∃ text branch, inst.getString? tag = some text ∧ cases.get? text = some branch ∧
        Evaluation.Accepts (casesRoot tag cases components discriminator branches) branch inst := by
  have hothers : ∀ known pool, Evaluation.Passes (casesRoot tag cases components discriminator branches)
      known pool (.object ((rootKeywords components discriminator branches).erase "oneOf")) inst := by
    intro known pool
    refine (Evaluation.passes_iff_fulfils (ordered_erase hordered "oneOf") hinst ?_).2 ?_
    · intro reference
      rw [Fields.get?_erase, if_neg (by decide)]
      exact rootKeywords_not_reference reference
    · exact (fulfils_of_inPlace_or_silent (by simp [rootKeywords, Fields.erase, inPlaceKeywords,
        silentKeys])).2 ⟨nofun, nofun, nofun, nofun, nofun⟩
  have hunguarded : ∀ known pool, ¬ Faulty (casesRoot tag cases components discriminator branches)
      known pool (.object ((rootKeywords components discriminator branches).erase "oneOf")) inst :=
    fun _ _ => not_faulty_of_unguarded (by simp [guardKeywords, rootKeywords, Fields.get?_cons, casesKeyword])
  have hreaches : reachesDiscriminator (casesRoot tag cases components discriminator branches) = true :=
    reachesDiscriminator_of_cases ((get?_withCases casesKeyword).trans (if_pos rfl))
  have hbase : discriminatorTag? (rootKeywords components discriminator branches) = some tag := htag
  have hpasses : Evaluation.Accepts (casesRoot tag cases components discriminator branches)
      (casesRoot tag cases components discriminator branches) inst ↔
        ∀ text branch, inst.getString? tag = some text → cases.get? text = some branch →
          Evaluation.Accepts (casesRoot tag cases components discriminator branches) branch inst :=
    (Evaluation.passes_withCases hordered hcases hinst rootKeywords_not_reference).trans
      (and_iff_right (hothers _ _))
  have hguard : ∀ known pool, _ := fun known pool =>
    @not_faulty_withCases (casesRoot tag cases components discriminator branches) inst known pool tag cases
      _ hbase rfl rootKeywords_not_reference
  rw [CompiledSchema.accepts_iff]
  simp only [hreaches, true_imp_iff]
  constructor
  · rintro ⟨haccepts, hsilent⟩
    obtain ⟨⟨text, branch, hheld, hcase, -⟩, -⟩ := (hguard _ _).1 hsilent
    exact ⟨text, branch, hheld, hcase, hpasses.1 haccepts text branch hheld hcase⟩
  · rintro ⟨text, branch, hheld, hcase, haccepts⟩
    obtain ⟨hbranch, hleads⟩ := hplain text branch hcase
    refine ⟨hpasses.2 fun other given hother hgiven => ?_, (hguard _ _).2 ⟨?_, hunguarded _ _⟩⟩
    · cases hheld.symm.trans hother
      cases hcase.symm.trans hgiven
      exact haccepts
    · exact ⟨text, branch, hheld, hcase, not_faulty_of_undiscriminated hbranch hleads⟩

/-- Where the tags of alternatives are their own, the cases that replace them accept, with the guard, what
they accept. -/
theorem CompiledSchema.accepts_cases_iff (name : String)
    (hdocument : document.get? "components" = some components) (hcomponents : components.ordered = true)
    (hdiscriminator : discriminator.ordered = true)
    (hbranches : ∀ branch ∈ branches, branch.ordered = true) (hinst : inst.ordered = true)
    (htag : discriminator.getString? "propertyName" = some tag)
    (hmapping : discriminator.get? "mapping" = none)
    (h : DistinctAlternatives (rootOf (.object (discriminated discriminator branches)) (some components))
      components tag texts branches) :
    CompiledSchema.accepts
        ⟨name, rootOf (nodeWithCases document (.object (discriminated discriminator branches)))
            (some (nodeWithCases document components)),
          reachesDiscriminator (rootOf
            (nodeWithCases document (.object (discriminated discriminator branches)))
            (some (nodeWithCases document components)))⟩ inst = true ↔
      Evaluation.findings (rootOf (.object (discriminated discriminator branches)) (some components))
        (rootOf (.object (discriminated discriminator branches)) (some components)) inst = [] := by
  have hown : ∀ branch ∈ branches, branchTags document tag branch = texts branch :=
    fun branch hbranch => (h.alternative branch hbranch).branchTags hdocument
  obtain ⟨cases, hadded, hget⟩ := @exists_addBranches document tag texts branches [] hown
    fun branch hbranch => (h.alternative branch hbranch).inhabited
  have hcase : ∀ text branch, cases.get? text = some branch ↔ branch ∈ branches ∧ text ∈ texts branch := by
    intro text branch
    rw [hget, Fields.get?, Option.none_or, find?_tag_eq_some_iff h.disjoint]
  have hcases : (Json.object cases).ordered = true := ordered_addBranches hbranches rfl hadded
  rw [rootOf_discriminated] at h ⊢
  rw [nodeWithCases_discriminated htag hmapping h.undiscriminated hadded,
    rootOf_cases (ordered_nodeWithCases hdiscriminator) hbranches hcases
      (ordered_nodeWithCases hcomponents)]
  have hsame : ∀ branch ∈ branches, ∀ reference,
      Needs (alternativesRoot components discriminator branches) branch reference → ∀ target,
        targetOf (casesRoot tag cases (nodeWithCases document components)
          (nodeWithCases document discriminator) branches) reference = .ok target ↔
        targetOf (alternativesRoot components discriminator branches) reference = .ok target := by
    intro branch hbranch reference hneeds target
    obtain ⟨given, hkept⟩ := h.references branch hbranch reference hneeds
    rw [(targetOf_casesRoot hkept).2, targetOf_alternativesRoot hkept]
  rw [accepts_casesRoot_iff name (ordered_alternativesRoot (ordered_nodeWithCases hcomponents)
      (ordered_nodeWithCases hdiscriminator) hbranches) hcases hinst
      ((getString?_nodeWithCases (by decide)).trans htag) ?plain]
  case plain =>
    intro text branch hbranch
    have hmem := ((hcase text branch).1 hbranch).1
    refine ⟨h.undiscriminated branch hmem, fun reference hneeds => ?_⟩
    have hown : Needs (alternativesRoot components discriminator branches) branch reference :=
      hneeds.of_same_targets fun next _ hnext target => (hsame branch hmem next hnext target).1
    obtain ⟨target, hkept⟩ := h.references branch hmem reference hown
    obtain ⟨hresolve, htarget⟩ := targetOf_casesRoot hkept
    exact ⟨target, htarget, hresolve, hkept.undiscriminated⟩
  refine Iff.trans ?_ (accepts_alternativesRoot_iff hcomponents hdiscriminator hbranches hinst h).symm
  refine exists_congr fun text => exists_congr fun branch => and_congr_right fun _ => ?_
  rw [hcase]
  refine and_congr_right fun hmem => ?_
  exact (Evaluation.accepts_iff_of_same_targets
    (ordered_alternativesRoot hcomponents hdiscriminator hbranches) (hbranches branch hmem.1) hinst
    (allReferences_subset_of_branch hmem.1)
    (allReferences_subset_of_case ((hcase text branch).2 hmem)) (hsame branch hmem.1)).symm

end

/-! ## Cats and dogs -/

def kindDiscriminator : Json := .object [("propertyName", .string "kind")]

def catReference : String := "#/components/schemas/Cat"

def catAlternative : Json := .object [("$ref", .string catReference)]

/-- A dog says that it is one, or a puppy. -/
def dogKeywords : Fields :=
  [("properties", .object [("kind", .object [("enum", .array [.string "dog", .string "puppy"])])]),
    ("required", .array [.string "kind"]), ("type", .string "object")]

def catComponents : Json :=
  .object [("schemas", .object [("Cat", .object (Evaluation.tagTest "kind" "cat"))])]

def petAlternatives : List Json := [catAlternative, .object dogKeywords]

def petTexts (branch : Json) : List String :=
  if branch.reference?.isSome then ["cat"] else ["dog", "puppy"]

theorem keptReference_cat :
    KeptReference catComponents catReference (.object (Evaluation.tagTest "kind" "cat")) where
  plain := ⟨by decide, by decide, by decide⟩
  undiscriminated := undiscriminated_of_isUntagged (by decide)
  steps := by
    refine ⟨["schemas", "Cat"], rfl, rfl, fun _ hfields => ?_, _, rfl, fun _ hfields => ?_, _, rfl, trivial⟩
    · cases hfields
      nofun
    · cases hfields
      nofun

theorem hasTags_cat : HasTags "kind" ["cat"] (Evaluation.tagTest "kind" "cat") where
  own := nofun
  object := ⟨_, rfl, rfl⟩
  required := ⟨_, rfl, by simp⟩
  allowed := ⟨_, rfl, nofun, by decide, .inl ⟨_, rfl, rfl⟩⟩

theorem hasTags_dog : HasTags "kind" ["dog", "puppy"] dogKeywords where
  own := nofun
  object := ⟨_, rfl, rfl⟩
  required := ⟨_, rfl, by simp⟩
  allowed := ⟨_, rfl, nofun, by decide, .inr ⟨rfl, rfl⟩⟩

theorem distinctAlternatives_pets : DistinctAlternatives
    (alternativesRoot catComponents kindDiscriminator petAlternatives) catComponents "kind" petTexts
      petAlternatives where
  alternative := by
    rw [petAlternatives, List.forall_mem_cons, List.forall_mem_singleton]
    exact ⟨.reference rfl keptReference_cat hasTags_cat, .inline hasTags_dog⟩
  undiscriminated := by
    rw [petAlternatives, List.forall_mem_cons, List.forall_mem_singleton]
    exact ⟨undiscriminated_of_isUntagged (by decide), undiscriminated_of_isUntagged (by decide)⟩
  references branch hbranch reference hneeds := by
    have hmem := hneeds.mem (allReferences_subset_of_branch hbranch)
    have hall : (alternativesRoot catComponents kindDiscriminator petAlternatives).allReferences =
        [catReference] := rfl
    rw [hall, List.mem_singleton] at hmem
    exact ⟨_, hmem ▸ keptReference_cat⟩
  disjoint := by decide

def catDocument : Json := .object [("components", catComponents)]

def puppy : Json := .object [("kind", .string "puppy")]

/-- A puppy is accepted by the alternatives exactly if their cases and the guard accept it. -/
theorem puppy_accepted_iff : CompiledSchema.accepts
      ⟨"#/pet", CompiledSchema.rootOf
          (nodeWithCases catDocument (.object (discriminated kindDiscriminator petAlternatives)))
          (some (nodeWithCases catDocument catComponents)),
        reachesDiscriminator (CompiledSchema.rootOf
          (nodeWithCases catDocument (.object (discriminated kindDiscriminator petAlternatives)))
          (some (nodeWithCases catDocument catComponents)))⟩ puppy = true ↔
    Evaluation.findings
      (CompiledSchema.rootOf (.object (discriminated kindDiscriminator petAlternatives)) (some catComponents))
      (CompiledSchema.rootOf (.object (discriminated kindDiscriminator petAlternatives)) (some catComponents))
      puppy = [] :=
  CompiledSchema.accepts_cases_iff "#/pet" rfl (by decide) (by decide) (by decide) rfl rfl rfl
    distinctAlternatives_pets

/-! ## A tag behind a reference -/

def kindReference : String := "#/components/schemas/Kind"

/-- A cat, whose kind is a component of its own. -/
def referringCat : Fields :=
  [("properties", .object [("kind", .object [("$ref", .string kindReference)])]),
    ("required", .array [.string "kind"]), ("type", .string "object")]

def kindComponents : Json :=
  .object [("schemas", .object [("Cat", .object referringCat),
    ("Kind", .object [("const", .string "cat")])])]

def kindDocument : Json := .object [("components", kindComponents)]

def cat : Json := .object [("kind", .string "cat")]

theorem referringCat_passes {root : Json} {known pool : List String}
    (htarget : targetOf root kindReference = .ok (.object [("const", .string "cat")])) :
    Evaluation.Passes root known pool (.object referringCat) cat := by
  have hplain : IsPlain referringCat := by decide
  refine (Evaluation.passes_iff_fulfils (by decide) rfl
    (by simp [referringCat, Fields.get?_cons])).2 ((fulfils_of_plain hplain).2
    ⟨?_, nofun, ?_, fun items hitems => by cases hitems⟩)
  · rw [Fields.forall_get?_iff (by decide), referringCat, List.forall_mem_cons, List.forall_mem_cons,
      List.forall_mem_singleton]
    exact ⟨Assertion.holds_of_not_mem (by decide), Evaluation.holds_required_one.2 rfl,
      Evaluation.holds_objectType.2 rfl⟩
  · intro fields hfields name value hmem sub hsub
    cases hfields
    cases List.mem_singleton.1 hmem
    cases hsub
    refine (Evaluation.passes_reference rfl).2 fun _ target hgiven => ?_
    cases htarget.symm.trans hgiven
    exact (Evaluation.passes_const rfl).2 rfl

/-- The cat satisfies the one alternative there is, but the table has it under the name of its schema and
not under its kind. -/
theorem cat_refused :
    Evaluation.findings
      (CompiledSchema.rootOf (.object (discriminated kindDiscriminator [catAlternative]))
        (some kindComponents))
      (CompiledSchema.rootOf (.object (discriminated kindDiscriminator [catAlternative]))
        (some kindComponents)) cat = [] ∧
    CompiledSchema.accepts
      ⟨"#/pet", CompiledSchema.rootOf
          (nodeWithCases kindDocument (.object (discriminated kindDiscriminator [catAlternative])))
          (some (nodeWithCases kindDocument kindComponents)),
        reachesDiscriminator (CompiledSchema.rootOf
          (nodeWithCases kindDocument (.object (discriminated kindDiscriminator [catAlternative])))
          (some (nodeWithCases kindDocument kindComponents)))⟩ cat = false := by
  have hroot : CompiledSchema.rootOf
      (nodeWithCases kindDocument (.object (discriminated kindDiscriminator [catAlternative])))
      (some (nodeWithCases kindDocument kindComponents)) =
        casesRoot "kind" [("Cat", catAlternative)] kindComponents kindDiscriminator [catAlternative] := rfl
  constructor
  · rw [rootOf_discriminated]
    refine (Evaluation.accepts_keywords (by decide) rfl rootKeywords_not_reference).2
      ((fulfils_of_inPlace_or_silent (by decide)).2 ⟨nofun, nofun, fun value hvalue => ?_, nofun, nofun⟩)
    cases hvalue
    refine ⟨[], catAlternative, [], rfl, ?_, nofun⟩
    refine (Evaluation.passes_reference rfl).2 fun _ target htarget => ?_
    have hcat : targetOf (alternativesRoot kindComponents kindDiscriminator [catAlternative]) catReference =
        .ok (.object referringCat) := targetOf_of_resolve? ⟨by decide, by decide, by decide⟩ rfl
    cases hcat.symm.trans htarget
    exact referringCat_passes (targetOf_of_resolve? ⟨by decide, by decide, by decide⟩ rfl)
  · rw [hroot, ← Bool.not_eq_true, CompiledSchema.accepts_iff]
    rintro ⟨-, hsilent⟩
    refine hsilent (reachesDiscriminator_of_cases ((get?_withCases casesKeyword).trans (if_pos rfl))) ?_
    exact .unselected rfl rfl

end ApiContract
