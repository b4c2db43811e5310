import ApiContract.Proofs.Preparation.Flattening
import ApiContract.Proofs.Schema.Cases

/-! # Prepared documents

The last two walks, and all of them together: documents that differ in the name of one entry are prepared
to documents that do.

* `Renamed.closeComponentSchemas`, `Renamed.nodeWithCases`: named schemas are closed and alternatives
  replaced alike.
* `Renamed.prepare`: the preparation as a whole. -/

set_option autoImplicit false

namespace ApiContract

/-! ## Closed schemas -/

section

variable {first second : String} {step : Step} {steps : List Step} {left right : Json}
  {p : String → Prop}

/-- What `mapField` makes of the value of a name. -/
def atField (key : String) (f : Json → Json) (name : String) (value : Json) : Json :=
  if name == key then f value else value

theorem mapField_object (key : String) (f : Json → Json) (fields : Fields) :
    mapField key f (.object fields) =
      .object (fields.map fun field => (field.1, atField key f field.1 field.2)) := by
  rw [mapField]
  congr 2
  funext field
  unfold atField
  split <;> rfl

theorem sameKind_mapField (key : String) (f : Json → Json) (value : Json) :
    SameKind value (mapField key f value) := by
  unfold mapField
  split
  · exact .object ..
  · exact .refl _

theorem sameKind_atField (key : String) {f : Json → Json} (h : ∀ value, SameKind value (f value))
    (name : String) (value : Json) : SameKind value (atField key f name value) := by
  unfold atField
  split
  · exact h value
  · exact .refl _

theorem Renamed.closeComponentSchemas (hcomponents : "components" ≠ step.key)
    (h : Renamed first second (step :: steps) left right) :
    Renamed first second (step :: steps) (ApiContract.closeComponentSchemas left)
      (ApiContract.closeComponentSchemas right) := by
  cases h with
  | @step _ _ left right frame hkept h =>
    have hkinds := sameKind_atField "components" (sameKind_mapField "schemas" (mapFields closeSchema))
    obtain ⟨next, hkeys, hnext⟩ := frame.exists_map
      (atField "components" (mapField "schemas" (mapFields closeSchema)))
    have hown : ∀ value, atField "components" (mapField "schemas" (mapFields closeSchema)) step.key value =
        value := fun value => if_neg (by rw [beq_false_of_ne hcomponents.symm]; exact Bool.false_ne_true)
    simp only [hown] at hnext
    rw [ApiContract.closeComponentSchemas, ApiContract.closeComponentSchemas, mapField_object,
      mapField_object, hnext, hnext]
    refine .step step next (hkept.imp_right fun hmap => ⟨?_, ?_, hkeys ▸ hmap.others⟩) h
    · rw [← hnext]
      exact hmap.left.map hkinds
    · rw [← hnext]
      exact hmap.right.map hkinds

theorem refersOnly_mapField {key : String} {f : Json → Json}
    (hkind : ∀ value, SameKind value (f value))
    (hf : ∀ value, RefersOnly p value → RefersOnly p (f value)) {value : Json}
    (h : RefersOnly p value) : RefersOnly p (mapField key f value) := by
  cases value with
  | object fields =>
    rw [mapField_object]
    refine refersOnly_object.2 (List.forall_mem_map.2 fun field hfield => ?_)
    have hold := refersOnly_object.1 h field hfield
    refine refersOnlyUnder_of_sameKind (sameKind_atField key hkind field.1 field.2) hold ?_
    unfold atField
    split
    · exact hf _ hold.2
    · exact hold.2
  | _ => exact h

theorem sameKind_closeSchema (value : Json) : SameKind value (closeSchema value) := by
  unfold closeSchema
  split
  · split
    · exact .object ..
    · exact .refl _
  · exact .refl _

theorem sameKind_mapFields (f : Json → Json) (value : Json) : SameKind value (mapFields f value) := by
  unfold mapFields
  split
  · exact .object ..
  · exact .refl _

theorem refersOnly_closeSchema {value : Json} (h : RefersOnly p value) :
    RefersOnly p (closeSchema value) := by
  unfold closeSchema
  split
  · split
    · refine refersOnly_insert h (refersOnlyUnder_of_ne (by decide) fun r hr => ?_)
      cases hr
    · exact h
  · exact h

theorem refersOnly_closeComponentSchemas {document : Json} (h : RefersOnly p document) :
    RefersOnly p (ApiContract.closeComponentSchemas document) := by
  refine refersOnly_mapField (sameKind_mapField _ _) (fun components hcomponents => ?_) h
  refine refersOnly_mapField (sameKind_mapFields _) (fun schemas hschemas => ?_) hcomponents
  unfold mapFields
  split
  · refine refersOnly_object.2 (List.forall_mem_map.2 fun field hfield => ?_)
    have hold := refersOnly_object.1 hschemas field hfield
    exact refersOnlyUnder_of_sameKind (sameKind_closeSchema field.2) hold (refersOnly_closeSchema hold.2)
  · exact hschemas

end

/-! ## Cases -/

theorem schemaWithCases_of_map {document : Json} {fields : Fields} (h : IsMap fields) :
    schemaWithCases document fields = fields := by
  unfold schemaWithCases
  split
  · rename_i tag branches htag hbranches
    obtain ⟨held, hheld, hname⟩ := Option.bind_eq_some_iff.1 htag
    cases held with
    | object given => exact absurd hbranches (h.alternatives given _ hheld)
    | _ => cases hname
  · rfl

theorem exists_schemaWithCases {document : Json} {key : String} (frame : Frame key)
    (h : key ∉ walkedKeywords) : ∃ next : Frame key, ∀ value,
      schemaWithCases document (frame.fill value) = next.fill value := by
  have hne : ∀ keyword ∈ walkedKeywords, keyword ≠ key := fun keyword hmem heq => h (heq ▸ hmem)
  have hdiscriminator := hne "discriminator" (by decide)
  have hone := hne "oneOf" (by decide)
  have hall := hne "allOf" (by decide)
  unfold schemaWithCases
  simp only [discriminatorTag?, discriminatorMapping, frame.get?_fill _ hdiscriminator,
    frame.get?_fill _ hone]
  split
  · split
    · rename_i cases _
      obtain ⟨erased, herased⟩ := frame.exists_erase hone
      have hconjuncts : ∀ value, conjuncts (frame.fill value) = conjuncts (frame.front ++ frame.back) := by
        intro value
        rw [conjuncts, conjuncts, frame.get?_fill _ hall]
      simp only [withCases_eq, herased, hconjuncts]
      obtain ⟨listed, hlisted⟩ := erased.exists_insert hall _
      obtain ⟨next, hnext⟩ := listed.exists_insert (hne casesKeyword (by decide)) _
      exact ⟨next, fun value => by rw [hlisted, hnext]⟩
    · exact ⟨frame, fun _ => rfl⟩
  · exact ⟨frame, fun _ => rfl⟩

theorem schemaWithCases_of_untagged {document : Json} {fields : Fields}
    (h : discriminatorTag? fields = none) : schemaWithCases document fields = fields := by
  unfold schemaWithCases
  rw [h]

/-- The keywords that the introduction of cases takes away or replaces. -/
def replacedKeywords : List String := ["oneOf", "allOf", casesKeyword]

theorem replacedKeywords_subset : replacedKeywords ⊆ walkedKeywords := by decide

theorem get?_schemaWithCases_of_ne {document : Json} {fields : Fields} {key : String}
    (h : key ∉ replacedKeywords) : (schemaWithCases document fields).get? key = fields.get? key := by
  have hne : ∀ keyword ∈ replacedKeywords, keyword ≠ key := fun keyword hmem heq => h (heq ▸ hmem)
  unfold schemaWithCases
  split
  · split
    · rw [get?_withCases, if_neg (hne _ (by decide)), if_neg (hne _ (by decide)),
        if_neg (hne _ (by decide))]
    · rfl
  · rfl

/-- The keys that the walk for cases passes over. -/
def passesCases (key : String) : Bool := isDataKeyword key || key == casesKeyword

theorem fieldsWithCases_eq_map (document : Json) (fields : Fields) :
    fieldsWithCases document fields = fields.map fun field =>
      (field.1, walkField (nodeWithCases document) passesCases field.1 field.2) := by
  induction fields with
  | nil => rfl
  | cons field rest ih =>
    rw [fieldsWithCases, ih, List.map_cons]
    rfl

theorem itemsWithCases_eq_map (document : Json) (items : List Json) :
    itemsWithCases document items = items.map (nodeWithCases document) := by
  induction items with
  | nil => rfl
  | cons item rest ih => rw [itemsWithCases, ih, List.map_cons]

theorem isWalk_nodeWithCases (document : Json) :
    IsWalk (nodeWithCases document) passesCases (schemaWithCases document) where
  object fields := by rw [nodeWithCases, fieldsWithCases_eq_map]
  kind value := by
    cases value with
    | object fields => exact .object ..
    | array items => exact .array ..
    | _ => exact .refl _
  map _ := schemaWithCases_of_map
  frame := exists_schemaWithCases

/-! ## Cases of documents that resolve alike -/

section

variable {p : String → Prop} {left right : Json}

theorem get?_schemaWithCases {document : Json} {fields : Fields} {key : String}
    (h : key ∉ walkedKeywords) : (schemaWithCases document fields).get? key = fields.get? key :=
  get?_schemaWithCases_of_ne fun hmem => h (replacedKeywords_subset hmem)

theorem get?_nodeWithCases {document value : Json} {key : String} (h : key ∉ walkedKeywords) :
    (nodeWithCases document value).get? key =
      (value.get? key).map (walkField (nodeWithCases document) passesCases key) := by
  cases value with
  | object fields =>
    rw [(isWalk_nodeWithCases document).object, Json.get?, get?_schemaWithCases h, Fields.get?_map]
    rfl
  | _ => rfl

theorem getString?_nodeWithCases {document value : Json} {key : String} (h : key ∉ walkedKeywords) :
    (nodeWithCases document value).getString? key = value.getString? key := by
  rw [Json.getString?, get?_nodeWithCases h, Json.getString?]
  cases value.get? key with
  | none => rfl
  | some held =>
    rw [Option.map_some, Option.bind_some, Option.bind_some]
    unfold walkField
    split
    · rfl
    · cases held <;> rfl

theorem reference?_nodeWithCases (document value : Json) :
    (nodeWithCases document value).reference? = value.reference? :=
  getString?_nodeWithCases (by decide)

theorem branchTags_congr {tag : String} {branch : Json}
    (h : ∀ reference, branch.reference? = some reference →
      left.resolve? reference = right.resolve? reference) :
    branchTags left tag branch = branchTags right tag branch := by
  unfold branchTags
  cases hreference : branch.reference? with
  | none => rfl
  | some reference =>
    simp only [h reference hreference]

theorem addBranches_congr {tag : String} {mapped : List String} {branches : List Json}
    (h : ∀ branch ∈ branches, ∀ reference, branch.reference? = some reference →
      left.resolve? reference = right.resolve? reference) (cases : Fields) :
    addBranches left tag mapped cases branches = addBranches right tag mapped cases branches := by
  induction branches generalizing cases with
  | nil => rfl
  | cons branch rest ih =>
    rw [List.forall_mem_cons] at h
    unfold addBranches
    rw [branchTags_congr h.1]
    simp only [ih h.2]

theorem schemaWithCases_congr {fields : Fields}
    (h : ∀ branches, fields.get? "oneOf" = some (.array branches) → ∀ branch ∈ branches,
      ∀ reference, branch.reference? = some reference →
        left.resolve? reference = right.resolve? reference) :
    schemaWithCases left fields = schemaWithCases right fields := by
  unfold schemaWithCases
  split
  · rename_i tag branches _ hbranches
    have hcases : discriminatorCases? left tag (discriminatorMapping fields) branches =
        discriminatorCases? right tag (discriminatorMapping fields) branches := by
      unfold discriminatorCases?
      exact Option.bind_congr fun mapped _ => addBranches_congr (h branches hbranches) _
    rw [hcases]
  · rfl

/-- Documents in which all references of a node lead to the same give it the same cases. -/
theorem nodeWithCases_congr (hresolve : ∀ reference, p reference →
      left.resolve? reference = right.resolve? reference) {node : Json} (h : RefersOnly p node) :
    nodeWithCases left node = nodeWithCases right node := by
  induction node using Json.partsInduction with
  | object fields ih =>
    have hfields : (fields.map fun field =>
          (field.1, walkField (nodeWithCases left) passesCases field.1 field.2)) =
        fields.map fun field =>
          (field.1, walkField (nodeWithCases right) passesCases field.1 field.2) := by
      refine List.map_congr_left fun field hfield => ?_
      unfold walkField
      rw [ih field hfield (refersOnly_object.1 h field hfield).2]
    rw [(isWalk_nodeWithCases left).object, (isWalk_nodeWithCases right).object, ← hfields]
    refine congrArg _ (schemaWithCases_congr fun branches hbranches branch hbranch reference hreference => ?_)
    rw [Fields.get?_map, Option.map_eq_some_iff] at hbranches
    obtain ⟨held, hheld, hwalked⟩ := hbranches
    have hpasses : walkField (nodeWithCases left) passesCases "oneOf" held = nodeWithCases left held :=
      if_neg (by decide)
    rw [hpasses] at hwalked
    have hinner := refersOnly_of_get? h hheld
    cases held with
    | array items =>
      rw [nodeWithCases, itemsWithCases_eq_map] at hwalked
      cases hwalked
      obtain ⟨item, hitem, rfl⟩ := List.mem_map.1 hbranch
      rw [reference?_nodeWithCases] at hreference
      exact hresolve reference ((refersOnly_array.1 hinner item hitem).reference hreference)
    | _ => cases hwalked
  | array items ih =>
    rw [nodeWithCases, nodeWithCases, itemsWithCases_eq_map, itemsWithCases_eq_map]
    refine congrArg _ (List.map_congr_left fun item hitem => ?_)
    exact ih item hitem (refersOnly_array.1 h item hitem)
  | plain value hobject harray =>
    rw [nodeWithCases, nodeWithCases]
    all_goals assumption

end

/-! ## The preparation -/

section

variable {first second : String} {step : Step} {steps : List Step} {left right : Json}

theorem Renamed.introduceCases (hpasses : passesCases first = passesCases second)
    (h : Renamed first second (step :: steps) left right)
    (hright : RefersOnly (LeadsElsewhere step.key) right) :
    Renamed first second (step :: steps) (ApiContract.introduceCases left)
      (ApiContract.introduceCases right) := by
  rw [ApiContract.introduceCases, ApiContract.introduceCases,
    ← nodeWithCases_congr (fun _ => h.resolve?) hright]
  exact (isWalk_nodeWithCases left).renamed hpasses h

/-- A status is a name to the walks, or data to all of them. -/
def TreatedAlike (first second : String) : Prop :=
  isDataKeyword first = isDataKeyword second ∧ passesCases first = passesCases second

/-- Documents that differ in the name of one entry are prepared to documents that do. -/
theorem Renamed.prepare (options : Options) (halike : TreatedAlike first second)
    (hcomponents : "components" ≠ step.key)
    (h : Renamed first second (step :: steps) left right)
    (hleft : RefersOnly (LeadsElsewhere step.key) left) (hright : RefersOnly (LeadsElsewhere step.key) right) :
    Renamed first second (step :: steps) (ApiContract.prepare options left)
      (ApiContract.prepare options right) := by
  have hnormal := isWalk_normalizeDialect.renamed halike.1 h
  have hflat := hnormal.flattenCompositions halike.1 (refersOnly_normalizeDialect hleft)
    (refersOnly_normalizeDialect hright)
  have hreferences := refersOnly_flattenCompositions (refersOnly_normalizeDialect hright)
  unfold ApiContract.prepare
  cases options.closeSchemas with
  | true =>
    exact (hflat.closeComponentSchemas hcomponents).introduceCases halike.2
      (refersOnly_closeComponentSchemas hreferences)
  | false => exact hflat.introduceCases halike.2 hreferences

end

end ApiContract
