import ApiContract.Proofs.Preparation.Tagging

/-! # Named schemas of prepared documents

The schemas that a document names stand in a map within a map within the document. The walks go through
these three objects as through any other, and find nothing to do in them where they are maps.

* `NamesSchemas`: a document with a map of named schemas.
* `IsWalk.namesSchemas`, `NamesSchemas.walked`, `NamesSchemas.closed`: what the steps of the preparation
  make of the map.
* `ordered_prepare`: the prepared document keeps its keys in order.
* `exists_follow?_prepare`: where a named schema stands in the prepared document. -/

set_option autoImplicit false

namespace ApiContract

/-- A document with a map of named schemas. -/
inductive NamesSchemas (schemas : Fields) : Json → Prop where
  | maps {top components : Fields} (htop : IsMap top) (hcomponents : IsMap components)
    (hschemas : IsMap schemas) (houter : top.get? "components" = some (.object components))
    (hinner : components.get? "schemas" = some (.object schemas)) : NamesSchemas schemas (.object top)

section

variable {schemas : Fields} {document flat : Json} {name : String}

theorem NamesSchemas.follow? (h : NamesSchemas schemas document) (name : String) :
    document.follow? ["components", "schemas", name] = schemas.get? name := by
  obtain ⟨-, -, -, houter, hinner⟩ := h
  rw [Json.follow?, Json.child?, houter, Option.bind_some, Json.follow?, Json.child?, hinner,
    Option.bind_some, Json.follow?, Json.child?]
  cases Fields.get? name schemas <;> rfl

/-! ## The steps of the preparation -/

theorem IsWalk.namesSchemas {walk : Json → Json} {passes : String → Bool} {finish : Fields → Fields}
    (hwalk : IsWalk walk passes finish) (hcomponents : passes "components" = false)
    (hschemas : passes "schemas" = false) (h : NamesSchemas schemas document) :
    NamesSchemas (schemas.map fun field => (field.1, walkField walk passes field.1 field.2))
      (walk document) := by
  obtain ⟨htop, hmiddle, hmap, houter, hinner⟩ := h
  have hkind := hwalk.sameKind_walkField
  have hobject : ∀ {fields}, IsMap fields → walk (.object fields) =
      .object (fields.map fun field => (field.1, walkField walk passes field.1 field.2)) :=
    fun hfields => by rw [hwalk.object, hwalk.map _ (hfields.map hkind)]
  rw [hobject htop]
  refine .maps (htop.map hkind) (hmiddle.map hkind) (hmap.map hkind) ?_ ?_
  · rw [Fields.get?_map, houter, Option.map_some, walkField, hcomponents, if_neg Bool.false_ne_true,
      hobject hmiddle]
  · rw [Fields.get?_map, hinner, Option.map_some, walkField, hschemas, if_neg Bool.false_ne_true,
      hobject hmap]

theorem NamesSchemas.walked {whole : Json} {depth : Nat} {followed : List String}
    (h : NamesSchemas schemas document) (hwalk : Walked whole depth followed document flat) :
    ∃ results, NamesSchemas results flat ∧ WalkedFields whole depth followed schemas results := by
  obtain ⟨htop, hmiddle, hmap, houter, hinner⟩ := h
  have hstep : ∀ {fields results : Fields}, WalkedFields whole depth followed fields results →
      IsMap fields → IsMap results := by
    intro fields results hfields hold
    refine hold.of_sameKind fun key value hvalue => ?_
    obtain ⟨old, hfound, hone⟩ := hfields.value hvalue
    exact ⟨old, hfound, hone.sameKind⟩
  have hvalue : ∀ {fields results given : Fields} {key : String},
      WalkedFields whole depth followed fields results → fields.get? key = some (.object given) →
      IsMap given → ∃ inner, results.get? key = some (.object inner) ∧
        WalkedFields whole depth followed given inner := by
    intro fields results given key hfields hgiven hold
    cases hresult : results.get? key with
    | none =>
      rw [(hfields.absent key).1 hresult] at hgiven
      cases hgiven
    | some result =>
      obtain ⟨old, hfound, hone⟩ := hfields.value hresult
      cases hgiven.symm.trans hfound
      obtain ⟨inner, rfl, hinner⟩ := hone.object hold.fragments
      exact ⟨inner, rfl, hinner⟩
  obtain ⟨flatTop, rfl, hfirst⟩ := hwalk.object htop.fragments
  obtain ⟨flatComponents, houter, hsecond⟩ := hvalue hfirst houter hmiddle
  obtain ⟨results, hinner, hthird⟩ := hvalue hsecond hinner hmap
  exact ⟨results, .maps (hstep hfirst htop) (hstep hsecond hmiddle) (hstep hthird hmap) houter hinner,
    hthird⟩

theorem NamesSchemas.closed (h : NamesSchemas schemas document) :
    NamesSchemas (schemas.map fun field => (field.1, closeSchema field.2))
      (closeComponentSchemas document) := by
  obtain ⟨htop, hmiddle, hmap, houter, hinner⟩ := h
  have hclosed := hmap.map fun _ => sameKind_closeSchema
  have hone := hmiddle.map (sameKind_atField "schemas" (sameKind_mapFields closeSchema))
  have htwo := htop.map
    (sameKind_atField "components" (sameKind_mapField "schemas" (mapFields closeSchema)))
  rw [closeComponentSchemas, mapField_object]
  refine .maps htwo hone hclosed ?_ ?_
  · rw [Fields.get?_map, houter, Option.map_some, atField, if_pos (beq_self_eq_true _),
      mapField_object]
  · rw [Fields.get?_map, hinner, Option.map_some, atField, if_pos (beq_self_eq_true _), mapFields]

/-! ## The prepared document -/

/-- A document with its schemas written as JSON Schema does, and flat. -/
def flattened (document : Json) : Json := flattenCompositions (normalizeDialect document)

theorem prepare_open {options : Options} (h : options.closeSchemas = false) (document : Json) :
    prepare options document = nodeWithCases (flattened document) (flattened document) := by
  rw [prepare, h]
  rfl

theorem prepare_closed {options : Options} (h : options.closeSchemas = true) (document : Json) :
    prepare options document = nodeWithCases (closeComponentSchemas (flattened document))
      (closeComponentSchemas (flattened document)) := by
  rw [prepare, h]
  rfl

theorem ordered_mapField {key : String} {f : Json → Json} {value : Json}
    (hf : ∀ part : Json, part.ordered = true → (f part).ordered = true) (h : value.ordered = true) :
    (mapField key f value).ordered = true := by
  cases value with
  | object fields =>
    rw [mapField_object]
    refine ordered_map h fun field _ hvalue => ?_
    unfold atField
    split
    · exact hf field.2 hvalue
    · exact hvalue
  | _ => exact h

theorem ordered_closeSchema {schema : Json} (h : schema.ordered = true) :
    (closeSchema schema).ordered = true := by
  unfold closeSchema
  split
  · split
    · exact ordered_insert h rfl
    · exact h
  · exact h

theorem ordered_closeComponentSchemas (h : document.ordered = true) :
    (closeComponentSchemas document).ordered = true := by
  refine ordered_mapField (fun components hcomponents => ?_) h
  refine ordered_mapField (fun given hgiven => ?_) hcomponents
  unfold mapFields
  split
  · exact @ordered_map (fun _ => closeSchema) _ hgiven fun _ _ => ordered_closeSchema
  · exact hgiven

theorem ordered_prepare (options : Options) (h : document.ordered = true) :
    (prepare options document).ordered = true := by
  have hflat := ordered_flattenCompositions (Dialect.ordered_normalizeDialect h)
  unfold prepare introduceCases
  refine ordered_nodeWithCases ?_
  split
  · exact ordered_closeComponentSchemas hflat
  · exact hflat

/-- A named schema is still there in the prepared document, open or closed, walked by each step. -/
theorem exists_follow?_prepare {schema : Json} (h : NamesSchemas schemas document)
    (hschema : schemas.get? name = some schema) :
    ∃ flat, Walked (normalizeDialect document) (flattenDepth (normalizeDialect document)) []
        (walkField normalizeDialect isDataKeyword name schema) flat ∧
      (∀ options : Options, options.closeSchemas = false →
        (prepare options document).follow? ["components", "schemas", name] =
          some (walkField (nodeWithCases (flattened document)) passesCases name flat)) ∧
      ∀ options : Options, options.closeSchemas = true →
        (prepare options document).follow? ["components", "schemas", name] =
          some (walkField (nodeWithCases (closeComponentSchemas (flattened document))) passesCases name
            (closeSchema flat)) := by
  have hnormal := isWalk_normalizeDialect.namesSchemas rfl rfl h
  obtain ⟨results, hresults, hfields⟩ :=
    hnormal.walked (walked_flattenCompositions (normalizeDialect document))
  replace hresults : NamesSchemas results (flattened document) := hresults
  have hnamed : Fields.get? name (schemas.map fun field =>
      (field.1, walkField normalizeDialect isDataKeyword field.1 field.2)) =
        some (walkField normalizeDialect isDataKeyword name schema) := by
    rw [Fields.get?_map, hschema, Option.map_some]
  cases hflat : results.get? name with
  | none =>
    rw [(hfields.absent name).1 hflat] at hnamed
    cases hnamed
  | some flat =>
    obtain ⟨value, hvalue, hwalk⟩ := hfields.value hflat
    cases hnamed.symm.trans hvalue
    refine ⟨flat, hwalk, fun options hoptions => ?_, fun options hoptions => ?_⟩
    · rw [prepare_open hoptions]
      have hopen := (isWalk_nodeWithCases (flattened document)).namesSchemas rfl rfl hresults
      rw [hopen.follow?, Fields.get?_map, hflat, Option.map_some]
    · rw [prepare_closed hoptions]
      have hclosed := (isWalk_nodeWithCases (closeComponentSchemas (flattened document))).namesSchemas
        rfl rfl hresults.closed
      rw [hclosed.follow?, Fields.get?_map, Fields.get?_map (fun _ => closeSchema), hflat,
        Option.map_some, Option.map_some]

end

end ApiContract
