import ApiContract.Proofs.Schema.Passing
import ApiContract.Schema.WellFormed

/-! # Shapes of keywords

The schema of schemas gives each keyword the shape of its value, and asks for nothing else of the
keywords of a schema.

* `Evaluation.passes_metaSchema_iff`: an object is a schema exactly if its keywords have their shapes.
* `Evaluation.passes_table_iff`: a table of schemas holds schemas.
* `Evaluation.passes_typeShape`: a name of a type, or a list of distinct ones, has the shape of `type`. -/

set_option autoImplicit false

namespace ApiContract

theorem SchemaType.name_injective : Function.Injective SchemaType.name := by
  intro one other
  cases one <;> cases other <;> simp [SchemaType.name]

theorem metaFault?_of_passes {schema : Json}
    (h : Evaluation.Passes metaSchema metaSchema.references metaSchema.references metaSchema schema) :
    metaFault? schema = none := by
  have hnone : Evaluation.findings metaSchema metaSchema schema = [] := h
  rw [metaFault?, hnone]
  rfl

namespace Evaluation

/-- The keywords of the schema of schemas. -/
def metaKeywords : Fields :=
  [("definitions", MetaSchema.definitions), ("properties", .object MetaSchema.keywords),
   ("type", .strings ["object", "boolean"])]

theorem ordered_shapes : (Json.object MetaSchema.keywords).ordered = true := by
  decide +kernel

section

variable {root value : Json} {known pool : List String} {fields : Fields}

/-- An object is a schema exactly if each of its keywords has a value of its shape. -/
theorem passes_metaSchema_iff (ho : fields.Ordered) :
    Passes root known pool metaSchema (.object fields) ↔
      ∀ name value, (name, value) ∈ fields → ∀ shape,
        Fields.get? name MetaSchema.keywords = some shape → Passes root known known shape value := by
  have hproperties {part : Part (.object metaKeywords)} (hpart : part.value = .object MetaSchema.keywords) :
      Asks (fun schema => Passes root known pool schema (.object fields)) (Passes root known known)
        metaKeywords "properties" part (.object fields) ↔
        ∀ name value, (name, value) ∈ fields → ∀ shape,
          Fields.get? name MetaSchema.keywords = some shape → Passes root known known shape value :=
    asks_properties ho (hpart ▸ rfl) (hpart ▸ ordered_shapes) rfl
  show Passes root known pool (.object metaKeywords) (.object fields) ↔ _
  rw [passes_keywords (by simp [metaKeywords, Fields.get?_cons])]
  constructor
  · intro h
    have hmem : ("properties", Json.object MetaSchema.keywords) ∈ metaKeywords := Fields.mem_of_get? rfl
    obtain ⟨part, hpart, hentry⟩ := exists_fieldPart (rfl : Json.object metaKeywords = _) hmem
    exact (hproperties hpart).1 (h ("properties", part) hentry).2
  · rintro h ⟨key, part⟩ hentry
    have hmem := mem_fieldParts_object.1 hentry
    simp only [metaKeywords, List.mem_cons, Prod.mk.injEq, List.not_mem_nil, or_false] at hmem
    rcases hmem with ⟨rfl, hpart⟩ | ⟨rfl, hpart⟩ | ⟨rfl, hpart⟩
    · exact ⟨rfl, asks_of_nil rfl⟩
    · exact ⟨rfl, (hproperties hpart).2 h⟩
    · rw [hpart]
      exact ⟨rfl, asks_of_nil rfl⟩

theorem passes_metaSchema_bool (flag : Bool) : Passes root known pool metaSchema (.bool flag) := by
  show Passes root known pool (.object metaKeywords) (.bool flag)
  rw [passes_keywords (by simp [metaKeywords, Fields.get?_cons])]
  rintro ⟨key, part⟩ hentry
  have hmem := mem_fieldParts_object.1 hentry
  simp only [metaKeywords, List.mem_cons, Prod.mk.injEq, List.not_mem_nil, or_false] at hmem
  rcases hmem with ⟨rfl, hpart⟩ | ⟨rfl, hpart⟩ | ⟨rfl, hpart⟩
  · exact ⟨rfl, asks_of_nil rfl⟩
  · exact ⟨rfl, asks_of_nil rfl⟩
  · rw [hpart]
    exact ⟨by cases flag <;> rfl, asks_of_nil rfl⟩

theorem passes_anySchema (h : ∀ pool, Passes metaSchema known pool metaSchema value) :
    Passes metaSchema known pool MetaSchema.anySchema value := by
  have hreference : Fields.get? "$ref" [("$ref", .string "#")] = some (.string "#") := rfl
  refine (passes_reference hreference).2 fun _ target htarget => ?_
  cases htarget
  exact h _

/-- A table of schemas holds schemas. -/
theorem passes_table_iff : Passes root known pool (MetaSchema.tableOf MetaSchema.anySchema)
    (.object fields) ↔
      ∀ name value, (name, value) ∈ fields → Passes root known known MetaSchema.anySchema value := by
  have hmembers : MembersPass (Passes root known known)
      [("additionalProperties", MetaSchema.anySchema), ("type", .string "object")] fields ↔
        ∀ name value, (name, value) ∈ fields → Passes root known known MetaSchema.anySchema value := by
    refine forall_congr' fun name => forall_congr' fun value => imp_congr_right fun _ => ?_
    rw [propertySchemas_of_absent rfl rfl]
    constructor
    · rintro ⟨-, h⟩
      exact h rfl MetaSchema.anySchema rfl rfl
    · refine fun h => ⟨fun sub hsub => absurd hsub List.not_mem_nil, fun _ sub hsub _ => ?_⟩
      cases hsub
      exact h
  have hasks {part : Part (MetaSchema.tableOf MetaSchema.anySchema)}
      (hpart : part.value = MetaSchema.anySchema) :
      Asks (fun schema => Passes root known pool schema (.object fields)) (Passes root known known)
        [("additionalProperties", MetaSchema.anySchema), ("type", .string "object")]
        "additionalProperties" part (.object fields) ↔
        ∀ name value, (name, value) ∈ fields → Passes root known known MetaSchema.anySchema value :=
    (asks_additionalProperties (fun _ => not_passes_false) (by rw [hpart]; rfl) rfl).trans hmembers
  rw [MetaSchema.tableOf, passes_keywords (by simp [Fields.get?_cons])]
  constructor
  · intro h
    obtain ⟨part, hpart, hentry⟩ := exists_fieldPart
      (rfl : MetaSchema.tableOf MetaSchema.anySchema = .object _) List.mem_cons_self
    exact (hasks hpart).1 (h ("additionalProperties", part) hentry).2
  · rintro h ⟨key, part⟩ hentry
    have hmem := mem_fieldParts_object.1 hentry
    simp only [List.mem_cons, Prod.mk.injEq, List.not_mem_nil, or_false] at hmem
    rcases hmem with ⟨rfl, hpart⟩ | ⟨rfl, hpart⟩
    · exact ⟨rfl, (hasks hpart).2 h⟩
    · rw [hpart]
      exact ⟨rfl, asks_of_nil rfl⟩

/-! ## Names of types -/

/-- The shape of a list of distinct names of types. -/
def typeListShape : Json :=
  .object
    [("items", MetaSchema.definition "simpleTypes"), ("minItems", .ofNat 1), ("type", .string "array"),
     ("uniqueItems", .bool true)]

/-- The shape of `type`. -/
def typeShape : Json := .object [("anyOf", .array [MetaSchema.definition "simpleTypes", typeListShape])]

theorem get?_type_keywords : Fields.get? "type" MetaSchema.keywords = some typeShape := rfl

theorem passes_name (type : SchemaType) :
    Passes metaSchema known pool (MetaSchema.definition "simpleTypes") (.string type.name) := by
  have hreference : Fields.get? "$ref" [("$ref", .string "#/definitions/simpleTypes")] =
      some (.string "#/definitions/simpleTypes") := rfl
  refine (passes_reference hreference).2 fun _ target htarget => ?_
  have hnames : targetOf metaSchema "#/definitions/simpleTypes" = .ok (.object [("enum",
      .strings ["array", "boolean", "integer", "null", "number", "object", "string"])]) := by
    rfl
  cases hnames.symm.trans htarget
  rw [passes_keywords (by simp [Fields.get?_cons])]
  rintro ⟨key, part⟩ hentry
  have hmem := mem_fieldParts_object.1 hentry
  simp only [List.mem_cons, Prod.mk.injEq, List.not_mem_nil, or_false] at hmem
  obtain ⟨rfl, hpart⟩ := hmem
  rw [hpart]
  exact ⟨by cases type <;> rfl, asks_of_nil rfl⟩

theorem allDistinct_strings {texts : List String} (h : texts.Nodup) :
    Json.allDistinct (texts.map .string) = true := by
  induction texts with
  | nil => rfl
  | cons text rest ih =>
    obtain ⟨hnew, hrest⟩ := List.nodup_cons.1 h
    rw [List.map_cons, Json.allDistinct, ih hrest, Bool.and_true, Bool.not_eq_true', List.any_map,
      List.any_eq_false]
    intro other hother hsame
    have heq : text = other := by simpa [Json.sameValue] using hsame
    exact hnew (heq ▸ hother)

theorem passes_names {types : List SchemaType} (hne : types ≠ []) (hnodup : types.Nodup) :
    Passes metaSchema known pool typeListShape (.strings (types.map SchemaType.name)) := by
  have hdistinct : (types.map SchemaType.name).Nodup :=
    List.pairwise_map.2 (hnodup.imp fun hne heq => hne (SchemaType.name_injective heq))
  rw [typeListShape, passes_keywords (by simp [Fields.get?_cons])]
  rintro ⟨key, part⟩ hentry
  have hmem := mem_fieldParts_object.1 hentry
  simp only [List.mem_cons, Prod.mk.injEq, List.not_mem_nil, or_false] at hmem
  rcases hmem with ⟨rfl, hpart⟩ | ⟨rfl, hpart⟩ | ⟨rfl, hpart⟩ | ⟨rfl, hpart⟩
  · refine ⟨rfl, ?_⟩
    have hsingle : ∀ tuple, part.value ≠ .array tuple := by
      rw [hpart]
      exact fun tuple heq => by cases heq
    have hschema : isItemSchema part.value = true := by
      rw [hpart]
      rfl
    refine (asks_of_demand _ ((demands_items_of_single hsingle).trans (if_pos hschema))).2
      (passes_itemApplications.2 fun i item _ hitem => ?_)
    obtain ⟨name, hname, rfl⟩ := List.mem_map.1 (List.mem_of_getElem? hitem)
    obtain ⟨type, -, rfl⟩ := List.mem_map.1 hname
    rw [hpart]
    exact passes_name type
  · rw [hpart]
    refine ⟨assertions_eq_nil_iff.2 ⟨fun limit hlimit => ?_, rfl⟩, asks_of_nil rfl⟩
    have hone : Assertion.countLimit? (.ofNat 1) = some 1 := rfl
    cases hone.symm.trans hlimit
    simpa [Nat.one_le_iff_ne_zero] using hne
  · rw [hpart]
    exact ⟨rfl, asks_of_nil rfl⟩
  · rw [hpart]
    exact ⟨assertions_eq_nil_iff.2 ⟨allDistinct_strings hdistinct, rfl⟩, asks_of_nil rfl⟩

theorem passes_typeShape (h : Passes metaSchema known pool (MetaSchema.definition "simpleTypes") value ∨
    Passes metaSchema known pool typeListShape value) : Passes metaSchema known pool typeShape value := by
  rw [typeShape, passes_keywords (by simp [Fields.get?_cons])]
  rintro ⟨key, part⟩ hentry
  have hmem := mem_fieldParts_object.1 hentry
  simp only [List.mem_cons, Prod.mk.injEq, List.not_mem_nil, or_false] at hmem
  obtain ⟨rfl, hpart⟩ := hmem
  refine ⟨assertions_eq_nil_iff.2 ⟨trivial, by cases value <;> rfl⟩, asks_anyOf.2 ?_⟩
  rw [hpart, listed_of_array rfl]
  rcases h with hname | hnames
  · exact ⟨_, List.mem_cons_self, hname⟩
  · exact ⟨_, List.mem_cons_of_mem _ List.mem_cons_self, hnames⟩

/-- Keywords that only name types are a schema. -/
theorem passes_metaSchema_type (h : Passes metaSchema known known typeShape value) :
    Passes metaSchema known pool metaSchema (.object [("type", value)]) := by
  have hordered : Fields.Ordered [("type", value)] := by simp [Fields.Ordered]
  refine (passes_metaSchema_iff hordered).2 fun name given hmem shape hshape => ?_
  cases List.mem_singleton.1 hmem
  cases get?_type_keywords.symm.trans hshape
  exact h

end

end Evaluation

end ApiContract
