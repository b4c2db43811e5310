import ApiContract.Proofs.Preparation.Prepared
import ApiContract.Proofs.Preparation.Replacing
import ApiContract.Proofs.Preparation.Retaining

/-! # References that last

A reference is a way through the very document that its preparation restructures. The way can still be
followed afterwards if no step of it goes to something that the preparation takes away or rebuilds.

* `KeptWay`: each step of a way goes to something that is kept.
* `Lasts`: the same of a way that can be followed.
* `Lasts.normalizeDialect`, `Lasts.walked`, `Lasts.closeComponentSchemas`, `Lasts.nodeWithCases`: one lemma
  for each step of the preparation.
* `isSome_resolve?_prepare`: references that last. -/

set_option autoImplicit false

namespace ApiContract

open Dialect

/-! ## What is kept -/

/-- Steps from a composition that merging keeps: to one of its own keywords, and among its properties to one
of them, though not into it. -/
def KeptByMerging (fields : Fields) (step : String) (rest : List String) : Prop :=
  ∀ fragments, fields.get? "allOf" = some (.array fragments) → step ≠ "allOf" ∧
    (step = "properties" → ∀ name more, rest = name :: more → more = [] ∧ name ∉ replacedKeywords)

/-- Steps from a schema that may get cases: to anything but what is replaced then. -/
def KeptByCases (fields : Fields) (step : String) : Prop :=
  fields.hasKey "discriminator" = true → step ∉ replacedKeywords

/-- A step from an object that the whole preparation keeps. -/
structure KeptStep (fields : Fields) (step : String) (rest : List String) : Prop where
  dialect : KeptByDialect fields step
  merging : KeptByMerging fields step rest
  cases : KeptByCases fields step

/-- Every step of a way is kept where it starts from an object. -/
def KeptWay : Json → List String → Prop
  | _, [] => True
  | value, step :: rest => (∀ fields, value = .object fields → KeptStep fields step rest) ∧
    ∀ part, value.child? step = some part → KeptWay part rest

/-- A way that can be followed, and is kept where it starts from an object. -/
def Lasts (kept : Fields → String → List String → Prop) : Json → List String → Prop
  | _, [] => True
  | value, step :: rest => (∀ fields, value = .object fields → kept fields step rest) ∧
    ∃ part, value.child? step = some part ∧ Lasts kept part rest

section

variable {kept weaker : Fields → String → List String → Prop} {value result : Json}
  {steps : List String}

theorem lasts_of_keptWay (h : KeptWay value steps) (hfollow : (value.follow? steps).isSome = true) :
    Lasts KeptStep value steps := by
  induction steps generalizing value with
  | nil => trivial
  | cons step rest ih =>
    rw [Json.follow?] at hfollow
    cases hpart : value.child? step with
    | none =>
      rw [hpart] at hfollow
      cases hfollow
    | some part =>
      rw [hpart] at hfollow
      exact ⟨h.1, part, hpart, ih (h.2 part hpart) hfollow⟩

theorem Lasts.isSome (h : Lasts kept value steps) : (value.follow? steps).isSome = true := by
  induction steps generalizing value with
  | nil => rfl
  | cons step rest ih =>
    obtain ⟨-, part, hpart, hrest⟩ := h
    rw [Json.follow?, hpart, Option.bind_some]
    exact ih hrest

theorem Lasts.mono (hweaker : ∀ fields step rest, kept fields step rest → weaker fields step rest)
    (h : Lasts kept value steps) : Lasts weaker value steps := by
  induction steps generalizing value with
  | nil => trivial
  | cons step rest ih =>
    obtain ⟨hstep, part, hpart, hrest⟩ := h
    exact ⟨fun fields hfields => hweaker fields step rest (hstep fields hfields), part, hpart, ih hrest⟩

/-- A way goes on in a value with more parts. -/
theorem Lasts.lengthened (h : Lasts kept value steps) (hlonger : Lengthened value result) :
    Lasts kept result steps := by
  cases steps with
  | nil => trivial
  | cons step rest =>
    obtain ⟨hstep, part, hpart, hrest⟩ := h
    have hchild := hlonger.child? hpart
    refine ⟨fun fields hfields => ?_, part, hchild, hrest⟩
    cases hlonger with
    | same => exact hstep fields hfields
    | longer => cases hfields
    | scalar hobject hitems =>
      cases value with
      | object given => cases hobject
      | array given => cases hitems
      | _ => cases hpart

theorem exists_item_of_child? {items : List Json} {step : String} {part : Json}
    (h : (Json.array items).child? step = some part) :
    ∃ i, indexOfStep? step = some i ∧ items[i]? = some part :=
  Option.bind_eq_some_iff.1 h

theorem child?_array {items : List Json} {step : String} {i : Nat} (h : indexOfStep? step = some i) :
    (Json.array items).child? step = items[i]? := by
  rw [Json.child?, h, Option.bind_some]

end

/-! ## The dialect -/

/-- What merging and cases keep of a way. -/
def KeptFurther (fields : Fields) (step : String) (rest : List String) : Prop :=
  KeptByMerging fields step rest ∧ KeptByCases fields step

theorem hasKey_normalized (fields : Fields) :
    (normalized fields).hasKey "discriminator" = fields.hasKey "discriminator" := by
  rw [Fields.hasKey, get?_normalized_of_not_walked (by decide), Option.isSome_map, Fields.hasKey]

theorem keptFurther_normalized {fields : Fields} {step : String} {rest : List String}
    (h : KeptStep fields step rest) : KeptFurther (normalized fields) step rest := by
  refine ⟨fun fragments hfragments => ?_, fun hdiscriminator => ?_⟩
  · rw [get?_normalized_of_not_walked (by decide), Option.map_eq_some_iff] at hfragments
    obtain ⟨held, hheld, hwalked⟩ := hfragments
    cases held with
    | array given => exact h.merging given hheld
    | _ => cases hwalked
  · rw [hasKey_normalized] at hdiscriminator
    exact h.cases hdiscriminator

theorem Lasts.normalizeDialect {value : Json} {steps : List String} (h : Lasts KeptStep value steps) :
    Lasts KeptFurther (ApiContract.normalizeDialect value) steps := by
  induction steps generalizing value with
  | nil => trivial
  | cons step rest ih =>
    obtain ⟨hstep, part, hpart, hrest⟩ := h
    cases value with
    | object fields =>
      have hkept := hstep fields rfl
      obtain ⟨result, hresult, hlonger⟩ := exists_get?_normalized hkept.dialect hpart
      rw [normalizeDialect_object]
      refine ⟨?_, result, hresult, .lengthened ?_ hlonger⟩
      · intro given hgiven
        cases hgiven
        exact keptFurther_normalized hkept
      · unfold walkField
        split
        · exact hrest.mono fun _ _ _ hfurther => ⟨hfurther.merging, hfurther.cases⟩
        · exact ih hrest
    | array items =>
      obtain ⟨i, hi, hitem⟩ := exists_item_of_child? hpart
      rw [ApiContract.normalizeDialect, normalizeItems_eq_map]
      refine ⟨fun given hgiven => ?_, ApiContract.normalizeDialect part, ?_, ih hrest⟩
      · cases hgiven
      · rw [child?_array hi, List.getElem?_map, hitem, Option.map_some]
    | _ => cases hpart

/-! ## Flat compositions -/

/-- What cases keep of a way. -/
def KeptLast (fields : Fields) (step : String) (_ : List String) : Prop := KeptByCases fields step

section

variable {document : Json} {depth : Nat} {followed : List String} {value result : Json}

/-- One step to a property of a composition. -/
theorem lasts_property {given results : Fields} {name : String}
    (hkept : ∀ other value, given.get? other = some value →
      ∃ result, results.get? other = some result ∧ (result = value ∨ result.isObject = true))
    (hname : name ∉ replacedKeywords) (h : Lasts KeptFurther (.object given) [name]) :
    Lasts KeptFurther (.object results) [name] := by
  obtain ⟨-, part, hpart, -⟩ := h
  obtain ⟨result, hresult, -⟩ := hkept name part hpart
  refine ⟨?_, result, hresult, trivial⟩
  intro fields hfields
  cases hfields
  refine ⟨fun fragments _ => ⟨?_, fun _ next more hrest => nomatch hrest⟩, fun _ => hname⟩
  rintro rfl
  exact hname (by decide)

theorem Retained.lasts {step : String} {rest : List String}
    (h : Retained step value result)
    (hname : step = "properties" → ∀ name more, rest = name :: more → more = [] ∧ name ∉ replacedKeywords)
    (hrest : Lasts KeptFurther value rest) : Lasts KeptFurther result rest := by
  cases h with
  | lengthened hlonger => exact hrest.lengthened hlonger
  | properties hkey hkept =>
    cases rest with
    | nil => trivial
    | cons name more =>
      obtain ⟨rfl, hne⟩ := hname hkey name more rfl
      exact lasts_property hkept hne hrest

theorem lasts_walkedFields {fields results : Fields} {step : String} {rest : List String} {part : Json}
    (ih : ∀ {value result : Json}, Walked document depth followed value result →
      Lasts KeptFurther value rest → Lasts KeptLast result rest)
    (hwalked : WalkedFields document depth followed fields results)
    (hcases : KeptByCases fields step) (hpart : fields.get? step = some part)
    (hrest : Lasts KeptFurther part rest) : Lasts KeptLast (.object results) (step :: rest) := by
  have hrel := hwalked.rel step
  rw [hpart] at hrel
  cases hresult : results.get? step with
  | none =>
    rw [hresult] at hrel
    cases hrel
  | some result =>
    rw [hresult] at hrel
    obtain ⟨hwalk⟩ := hrel
    refine ⟨?_, result, hresult, ih hwalk hrest⟩
    intro given hgiven
    cases hgiven
    intro hdiscriminator
    refine hcases ?_
    rw [Fields.hasKey, Option.isSome_iff_ne_none] at hdiscriminator ⊢
    rwa [ne_eq, ← hwalked.absent]

/-- What stands at the end of a way through compositions still stands there when they are flat. -/
theorem Lasts.walked {steps : List String} (h : Lasts KeptFurther value steps)
    (hwalk : Walked document depth followed value result) : Lasts KeptLast result steps := by
  induction steps generalizing value result depth with
  | nil => trivial
  | cons step rest ih =>
    cases hwalk with
    | kept => exact h.mono fun _ _ _ hfurther => hfurther.2
    | flattened hwithin hflat =>
      rename_i within
      cases within with
      | zero => cases hflat
      | succ within =>
        obtain ⟨hstep, part, hpart, hrest⟩ := h
        cases value with
        | object fields =>
          rw [flattenNode?_object, Option.bind_eq_some_iff] at hflat
          obtain ⟨keywords, hkeywords, hflat⟩ := hflat
          obtain ⟨results, hresults, rfl⟩ := Option.map_eq_some_iff.1 hflat
          obtain ⟨hmerging, hcases⟩ := hstep fields rfl
          obtain ⟨middle, hmiddle, hretained⟩ := exists_retained_composedFields? hkeywords
            (fun fragments hall => (hmerging fragments hall).1) hpart
          refine lasts_walkedFields (fun hwalk hlasts => ih hlasts hwalk)
            (walkedFields_of_mapValues? (Nat.le_refl within) hresults) ?_ hmiddle ?_
          · intro hdiscriminator
            refine hcases ?_
            rwa [Fields.hasKey, get?_discriminator_composedFields? hkeywords] at hdiscriminator
          · by_cases hall : ∃ fragments, Fields.get? "allOf" fields = some (.array fragments)
            · obtain ⟨fragments, hall⟩ := hall
              exact hretained.lasts (hmerging fragments hall).2 hrest
            · rw [composedFields?_of_no_fragments fun fragments hfragments => hall ⟨fragments, hfragments⟩,
                Option.some.injEq] at hkeywords
              subst hkeywords
              cases hpart.symm.trans hmiddle
              exact hrest
        | array items =>
          obtain ⟨i, hi, hitem⟩ := exists_item_of_child? hpart
          rw [flattenNode?_array] at hflat
          obtain ⟨results, hresults, rfl⟩ := Option.map_eq_some_iff.1 hflat
          obtain ⟨flat, hflat, hwalk⟩ := exists_getElem?_of_forall₂ (forall₂_of_mapM hresults).flip hitem
          refine ⟨fun given hgiven => ?_, flat, ?_, ih hrest (.flattened (Nat.le_refl within) hwalk)⟩
          · cases hgiven
          · rw [child?_array hi, hflat]
        | _ => cases hpart

end

/-! ## Closed schemas and cases -/

section

variable {value : Json} {steps : List String}

/-- A way through an object whose values are replaced under their names. -/
theorem lasts_map {fields : Fields} {step : String} {rest : List String} {g : String → Json → Json}
    (h : Lasts KeptLast (.object fields) (step :: rest))
    (hg : ∀ part, Lasts KeptLast part rest → Lasts KeptLast (g step part) rest) :
    Lasts KeptLast (.object (fields.map fun field => (field.1, g field.1 field.2))) (step :: rest) := by
  obtain ⟨hstep, part, hpart, hrest⟩ := h
  refine ⟨?_, g step part, ?_, hg part hrest⟩
  · intro given hgiven
    cases hgiven
    intro hdiscriminator
    rw [Fields.hasKey, Fields.get?_map, Option.isSome_map] at hdiscriminator
    exact hstep fields rfl hdiscriminator
  · have hget : Fields.get? step fields = some part := hpart
    rw [Json.child?, Fields.get?_map, hget, Option.map_some]

theorem Lasts.closeSchema (h : Lasts KeptLast value steps) :
    Lasts KeptLast (ApiContract.closeSchema value) steps := by
  unfold ApiContract.closeSchema
  split
  · rename_i fields
    split
    · rename_i hclosable
      cases steps with
      | nil => trivial
      | cons step rest =>
        obtain ⟨hstep, part, hpart, hrest⟩ := h
        have hopen : Fields.get? "additionalProperties" fields = none := by
          rw [isClosable, Bool.not_eq_true'] at hclosable
          simp only [Bool.or_eq_false_iff] at hclosable
          exact Fields.hasKey_eq_false_iff.1 hclosable.1.1.2
        have hne : step ≠ "additionalProperties" := by
          rintro rfl
          cases hopen.symm.trans hpart
        refine ⟨?_, part, ?_, hrest⟩
        · intro given hgiven
          cases hgiven
          intro hdiscriminator
          rw [Fields.hasKey, Fields.get?_insert, if_neg (by decide)] at hdiscriminator
          exact hstep fields rfl hdiscriminator
        · rw [Json.child?, Fields.get?_insert, if_neg hne.symm]
          exact hpart
    · exact h
  · exact h

theorem Lasts.mapFields {f : Json → Json}
    (hf : ∀ part rest, Lasts KeptLast part rest → Lasts KeptLast (f part) rest)
    (h : Lasts KeptLast value steps) : Lasts KeptLast (ApiContract.mapFields f value) steps := by
  unfold ApiContract.mapFields
  split
  · cases steps with
    | nil => trivial
    | cons step rest => exact lasts_map (g := fun _ => f) h fun part => hf part rest
  · exact h

theorem Lasts.mapField {key : String} {f : Json → Json}
    (hf : ∀ part rest, Lasts KeptLast part rest → Lasts KeptLast (f part) rest)
    (h : Lasts KeptLast value steps) : Lasts KeptLast (ApiContract.mapField key f value) steps := by
  cases value with
  | object fields =>
    rw [mapField_object]
    cases steps with
    | nil => trivial
    | cons step rest =>
      refine lasts_map h fun part hpart => ?_
      unfold atField
      split
      · exact hf part rest hpart
      · exact hpart
  | _ => exact h

theorem Lasts.closeComponentSchemas (h : Lasts KeptLast value steps) :
    Lasts KeptLast (ApiContract.closeComponentSchemas value) steps :=
  h.mapField fun _ _ hcomponents => hcomponents.mapField fun _ _ hschemas =>
    hschemas.mapFields fun _ _ hschema => hschema.closeSchema

theorem get?_schemaWithCases_of_kept {document : Json} {fields : Fields} {key : String}
    (h : KeptByCases fields key) : (schemaWithCases document fields).get? key = fields.get? key := by
  by_cases hdiscriminator : fields.hasKey "discriminator" = true
  · exact get?_schemaWithCases_of_ne (h hdiscriminator)
  · rw [Bool.not_eq_true, Fields.hasKey_eq_false_iff] at hdiscriminator
    rw [schemaWithCases_of_untagged (by rw [discriminatorTag?, hdiscriminator, Option.bind_none])]

theorem lasts_schemaWithCases {document : Json} {fields : Fields}
    (h : Lasts KeptLast (.object fields) steps) :
    Lasts KeptLast (.object (schemaWithCases document fields)) steps := by
  cases steps with
  | nil => trivial
  | cons step rest =>
    obtain ⟨hstep, part, hpart, hrest⟩ := h
    have hcases := hstep fields rfl
    have hsame : (schemaWithCases document fields).get? "discriminator" = fields.get? "discriminator" :=
      get?_schemaWithCases_of_ne (by decide)
    refine ⟨?_, part, ?_, hrest⟩
    · intro given hgiven
      cases hgiven
      intro hdiscriminator
      exact hcases (by rwa [Fields.hasKey, hsame] at hdiscriminator)
    · rw [Json.child?, get?_schemaWithCases_of_kept hcases]
      exact hpart

theorem Lasts.nodeWithCases {document : Json} (h : Lasts KeptLast value steps) :
    Lasts KeptLast (ApiContract.nodeWithCases document value) steps := by
  induction steps generalizing value with
  | nil => trivial
  | cons step rest ih =>
    cases value with
    | object fields =>
      rw [(isWalk_nodeWithCases document).object]
      refine lasts_schemaWithCases (lasts_map h fun part hpart => ?_)
      unfold walkField
      split
      · exact hpart
      · exact ih hpart
    | array items =>
      obtain ⟨-, part, hpart, hrest⟩ := h
      obtain ⟨i, hi, hitem⟩ := exists_item_of_child? hpart
      rw [ApiContract.nodeWithCases, itemsWithCases_eq_map]
      refine ⟨fun given hgiven => ?_, ApiContract.nodeWithCases document part, ?_, ih hrest⟩
      · cases hgiven
      · rw [child?_array hi, List.getElem?_map, hitem, Option.map_some]
    | _ => exact h

end

/-! ## References -/

/-- A document in which the steps of a reference are kept. -/
def KeepsReference (document : Json) (reference : String) : Prop :=
  ∀ steps, pointerSteps? reference = some steps → KeptWay document steps

/-- A reference to a node of a document leads to a node of the prepared document if its way goes through
nothing that the preparation takes away. -/
theorem isSome_resolve?_prepare (options : Options) (document : Json) (reference : String)
    (hkept : KeepsReference document reference)
    (hresolve : (document.resolve? reference).isSome = true) :
    ((prepare options document).resolve? reference).isSome = true := by
  unfold Json.resolve? at hresolve ⊢
  cases hsteps : pointerSteps? reference with
  | none =>
    rw [hsteps] at hresolve
    cases hresolve
  | some steps =>
    rw [hsteps, Option.bind_some] at hresolve
    rw [Option.bind_some]
    have hflat := ((lasts_of_keptWay (hkept steps hsteps) hresolve).normalizeDialect).walked
      (walked_flattenCompositions (ApiContract.normalizeDialect document))
    refine @Lasts.isSome KeptLast _ _ ?_
    unfold prepare introduceCases
    refine Lasts.nodeWithCases ?_
    split
    · exact hflat.closeComponentSchemas
    · exact hflat

/-! ## A property of a composition -/

theorem keptByDialect_of_not_mem {fields : Fields} {key : String}
    (h : key ∉ ["nullable", "exclusiveMinimum", "minimum", "exclusiveMaximum", "maximum"]) :
    KeptByDialect fields key := by
  have hne : ∀ keyword ∈ ["nullable", "exclusiveMinimum", "minimum", "exclusiveMaximum", "maximum"],
      key ≠ keyword := fun keyword hmem heq => h (heq ▸ hmem)
  exact ⟨fun hkey => absurd hkey (hne _ (by decide)),
    ⟨fun hkey => absurd hkey (hne _ (by decide)), fun hkey => absurd hkey (hne _ (by decide))⟩,
    ⟨fun hkey => absurd hkey (hne _ (by decide)), fun hkey => absurd hkey (hne _ (by decide))⟩⟩

/-- A way to a component of a document without any other buckets. -/
theorem keptWay_component {schemas : Fields} {name : String} {rest : List String}
    (hname : name ∉ ["nullable", "exclusiveMinimum", "minimum", "exclusiveMaximum", "maximum"])
    (hall : ∀ fragments, schemas.get? "allOf" ≠ some (.array fragments))
    (hdiscriminator : schemas.hasKey "discriminator" = false)
    (h : ∀ schema, schemas.get? name = some schema → KeptWay schema rest) :
    KeptWay (componentsDocument schemas) ("components" :: "schemas" :: name :: rest) := by
  refine ⟨fun _ hfields => ?_, fun _ hcomponents => ?_⟩
  · cases hfields
    exact ⟨keptByDialect_of_not_mem (by decide), nofun, nofun⟩
  cases hcomponents
  refine ⟨fun _ hfields => ?_, fun _ hschemas => ?_⟩
  · cases hfields
    exact ⟨keptByDialect_of_not_mem (by decide), nofun, nofun⟩
  cases hschemas
  refine ⟨fun _ hfields => ?_, h⟩
  cases hfields
  refine ⟨keptByDialect_of_not_mem hname, fun fragments hfragments => absurd hfragments (hall fragments),
    fun hheld => ?_⟩
  rw [hdiscriminator] at hheld
  cases hheld

def anyText : Json := .object [("type", .string "string")]

def tailedPet : Json :=
  .object [("allOf", .array [namedReference]), ("properties", .object [("tail", anyText)])]

def tailedPetDocument : Json := componentsDocument [("Named", namedSchema), ("Pet", tailedPet)]

/-- A reference to a property of a composition is kept when the composition is made flat and closed. -/
theorem isSome_resolve?_tail :
    KeepsReference tailedPetDocument "#/components/schemas/Pet/properties/tail" ∧
    (tailedPetDocument.resolve? "#/components/schemas/Pet/properties/tail").isSome = true ∧
    ((prepare { Options.defaults with closeSchemas := true } tailedPetDocument).resolve?
      "#/components/schemas/Pet/properties/tail").isSome = true := by
  have hkept : KeepsReference tailedPetDocument "#/components/schemas/Pet/properties/tail" := by
    intro steps hsteps
    cases hsteps
    refine keptWay_component (by decide) nofun rfl fun _ hpet => ?_
    cases hpet
    refine ⟨fun _ hfields => ?_, fun _ hproperties => ?_⟩
    · cases hfields
      refine ⟨keptByDialect_of_not_mem (by decide), fun _ _ => ⟨by decide, fun _ name more hrest => ?_⟩,
        nofun⟩
      cases hrest
      exact ⟨rfl, by decide⟩
    · cases hproperties
      refine ⟨fun _ hfields => ?_, fun _ _ => trivial⟩
      cases hfields
      exact ⟨keptByDialect_of_not_mem (by decide), nofun, nofun⟩
  exact ⟨hkept, rfl, isSome_resolve?_prepare _ _ _ hkept rfl⟩

/-! ## A reference that is left behind -/

/-- A reference to the first fragment of a composition. -/
def fragmentReference : String := "#/components/schemas/Name/allOf/0"

def shortText : Json := .object [("allOf", .array [anyText, .object [("minLength", .number (.int 1))]])]

def fragmentDocument : Json :=
  componentsDocument [("Name", shortText), ("Pet", .object [("properties",
    .object [("name", .object [("$ref", .string fragmentReference)])])])]

/-- The fragment is merged into the composition, and what referred to it refers to nothing. -/
theorem fragmentReference_left_behind :
    fragmentDocument.follow? ["components", "schemas", "Pet", "properties", "name", "$ref"] =
      some (.string fragmentReference) ∧
    fragmentDocument.resolve? fragmentReference = some anyText ∧
    (flattenNode? (normalizeDialect fragmentDocument) (flattenDepth (normalizeDialect fragmentDocument)) []
      (normalizeDialect fragmentDocument)).isSome = true ∧
    (prepare Options.defaults fragmentDocument).follow?
      ["components", "schemas", "Pet", "properties", "name", "$ref"] = some (.string fragmentReference) ∧
    (prepare Options.defaults fragmentDocument).resolve? fragmentReference = none :=
  ⟨rfl, rfl, rfl, rfl, rfl⟩

end ApiContract
