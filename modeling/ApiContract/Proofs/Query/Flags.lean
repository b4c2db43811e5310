import ApiContract.Proofs.Query.Nesting
import ApiContract.Proofs.Route.Recognition
import ApiContract.Proofs.Route.Tables
import ApiContract.Proofs.Schema.Conjoining
import ApiContract.Proofs.Schema.Shapes

/-! # Texts that are no flags

Strict coercion makes no flag of a text that is neither of the two words. Where the schema of a parameter
asks for a flag, such a text is a problem whatever the coercer takes it for, unless the schema lets null
pass there and null does not count as empty.

* `Misstated`: a text at a place of a value where the schema asks for a flag.
* `Coerced`: what strict coercion may leave of a value, whatever the schema.
* `not_passes_of_misstated`: a misstated value does not pass, however it is coerced.
* `Validator.misstated_reported`: a query with such a value has a problem. -/

set_option autoImplicit false

namespace ApiContract

/-! ## What strict coercion may leave -/

/-- The two words that strict coercion takes for flags, in any case. -/
def IsFlagWord (text : String) : Prop := asciiLower text = "true" ∨ asciiLower text = "false"

/-- Any other text becomes null. -/
theorem coerceFlag_of_not_word {text : String} (h : ¬ IsFlagWord text) :
    coerceFlag .strict text = .null := by
  obtain ⟨htrue, hfalse⟩ := not_or.1 h
  simp only [coerceFlag, if_true, if_neg htrue, if_neg hfalse]

/-- What strict coercion may make of a value, whatever the schema. -/
inductive Coerced : Json → Json → Prop where
  | same (value : Json) : Coerced value value
  | number (text : String) (n : Number) : Coerced (.string text) (.number n)
  | null (text : String) : Coerced (.string text) .null
  | flag {text : String} (b : Bool) (h : IsFlagWord text) : Coerced (.string text) (.bool b)
  | items {value : Json} {items : List Json} {f : Json → Json} (hsplit : splitItems value = .array items)
    (hf : ∀ item ∈ items, Coerced item (f item)) : Coerced value (.array (items.map f))
  | fields {fields : Fields} {f : String × Json → Json} (hf : ∀ field ∈ fields, Coerced field.2 (f field)) :
    Coerced (.object fields) (.object (fields.map fun field => (field.1, f field)))

theorem coerced_scalar {convert : String → Option Json} {value : Json}
    (h : ∀ text result, convert text = some result → Coerced (.string text) result) :
    Coerced value (coerceScalar convert value) := by
  cases value with
  | string text =>
    rw [coerceScalar]
    cases hresult : convert text with
    | none => exact .same _
    | some result => exact h text result hresult
  | _ => exact .same _

theorem coerced_coerceInteger {text : String} {result : Json}
    (h : coerceInteger .strict text = some result) : Coerced (.string text) result := by
  obtain ⟨n, rfl⟩ := exists_number_of_coerceInteger h
  exact .number text n

theorem coerced_coerceNumber {text : String} {result : Json} (h : coerceNumber text = some result) :
    Coerced (.string text) result := by
  obtain ⟨n, rfl⟩ := exists_number_of_coerceNumber h
  exact .number text n

theorem coerced_coerceFlag (text : String) : Coerced (.string text) (coerceFlag .strict text) := by
  by_cases hword : IsFlagWord text
  · obtain ⟨b, hflag⟩ : ∃ b, coerceFlag .strict text = .bool b := by
      rcases hword with htrue | hfalse
      · exact ⟨true, by simp [coerceFlag, htrue]⟩
      · exact ⟨false, by simp [coerceFlag, hfalse]⟩
    rw [hflag]
    exact .flag b hword
  · rw [coerceFlag_of_not_word hword]
    exact .null text

theorem Coerced.split (value : Json) : Coerced value (splitItems value) := by
  cases value with
  | string text =>
    have hitems : splitItems (.string text) = .array (((text.toList.splitOn ',').map fun piece =>
        Json.string (String.ofList piece)).map id) := by
      rw [List.map_id]
      rfl
    rw [hitems]
    exact .items rfl fun item _ => .same item
  | _ => exact .same _

theorem coerced_coerceValue (schema value : Json) : Coerced value (coerceValue .strict schema value) := by
  by_cases hinteger : declaredType? schema = some "integer"
  · rw [coerceValue_integer hinteger]
    exact coerced_scalar fun _ _ => coerced_coerceInteger
  by_cases hnumber : declaredType? schema = some "number"
  · rw [coerceValue_number hnumber]
    exact coerced_scalar fun _ _ => coerced_coerceNumber
  by_cases hboolean : declaredType? schema = some "boolean"
  · rw [coerceValue_boolean hboolean]
    exact coerced_scalar fun text result h => Option.some.inj h ▸ coerced_coerceFlag text
  by_cases harray : declaredType? schema = some "array"
  · rw [coerceValue_array harray]
    split
    · rename_i inner items hitems hsplit
      have hsmaller := Json.sizeOf_get?_lt hitems
      exact .items hsplit fun item _ => coerced_coerceValue inner item
    · exact .split value
  by_cases hobject : declaredType? schema = some "object"
  · rw [coerceValue_object hobject]
    split
    · rename_i properties fields hproperties
      have hsmaller : ∀ key inner, Fields.get? key properties = some inner → sizeOf inner < sizeOf schema := by
        intro key inner hinner
        obtain ⟨part, hpart, hfields⟩ := Option.bind_eq_some_iff.1 hproperties
        have hsize := Json.sizeOf_fields_lt hfields
        exact (Fields.sizeOf_get?_lt hinner).trans (hsize.trans (Json.sizeOf_get?_lt hpart))
      have hfields : fields.map (coerceField .strict fun key => properties.get? key) =
          fields.map fun field => (field.1, (coerceField .strict (fun key => properties.get? key) field).2) := by
        refine List.map_congr_left fun field _ => ?_
        exact Prod.ext (coerceField_fst field) rfl
      rw [hfields]
      refine .fields fun field _ => ?_
      unfold coerceField
      split
      · rename_i inner hinner
        have hinside := hsmaller field.1 inner hinner
        exact coerced_coerceValue inner field.2
      · exact .same _
    · exact .same _
  · have hother : ∀ type ∈ declaredType? schema,
        type ∉ ["integer", "number", "boolean", "array", "object"] := by
      intro type htype
      rw [Option.mem_def] at htype
      simp only [htype, Option.some.injEq] at hinteger hnumber hboolean harray hobject
      simp [hinteger, hnumber, hboolean, harray, hobject]
    rw [coerceValue_other hother]
    exact .same value
termination_by sizeOf schema
decreasing_by
  · exact hsmaller
  · exact hinside

theorem coerced_coerceField {schemaOf : String → Option Json} (field : String × Json) :
    Coerced field.2 (coerceField .strict schemaOf field).2 := by
  unfold coerceField
  split
  · exact coerced_coerceValue _ field.2
  · exact .same _

section

variable {coerced : Json} {fields : Fields} {items : List Json} {text : String}

/-- An object stays one, with its fields coerced. -/
theorem Coerced.of_object (h : Coerced (.object fields) coerced) : ∃ f : String × Json → Json,
    coerced = .object (fields.map fun field => (field.1, f field)) ∧
      ∀ field ∈ fields, Coerced field.2 (f field) := by
  cases h with
  | same => exact ⟨Prod.snd, by simp, fun field _ => .same _⟩
  | items hsplit => cases hsplit
  | @fields _ f hf => exact ⟨f, rfl, hf⟩

/-- An array stays one, with its items coerced. -/
theorem Coerced.of_array (h : Coerced (.array items) coerced) : ∃ f : Json → Json,
    coerced = .array (items.map f) ∧ ∀ item ∈ items, Coerced item (f item) := by
  cases h with
  | same => exact ⟨id, by rw [List.map_id], fun item _ => .same item⟩
  | @items _ _ f hsplit hf =>
    cases hsplit
    exact ⟨f, rfl, hf⟩

/-- A text that is no flag becomes none, and an array only piece by piece. -/
theorem Coerced.of_text (h : Coerced (.string text) coerced) (hword : ¬ IsFlagWord text) :
    SchemaType.boolean.holds coerced = false := by
  cases h with
  | flag b hflag => exact absurd hflag hword
  | _ => rfl

theorem Coerced.of_split (h : Coerced (.string text) coerced)
    (harray : SchemaType.array.holds coerced = true) : Coerced (splitItems (.string text)) coerced := by
  cases h with
  | items hsplit hf => exact .items hsplit hf
  | _ => cases harray

end

/-! ## What is misstated -/

/-- Keywords ask for values of one type, or also for null if that is left to say. -/
def NamesOnly (type : SchemaType) (orNull : Bool) (keywords : Fields) : Prop :=
  ∃ given, keywords.get? "type" = some given ∧
    ∀ name ∈ Assertion.typeNames given, name = type.name ∨ orNull = true ∧ name = SchemaType.null.name

/-- A text that is no flag stands in a value where a schema asks for a flag: as the value itself, as a
property of an object, as an item of an array or as a piece of a text that is read as an array. Where
null would be refused as empty, the schema may let it pass. -/
inductive Misstated (root : Json) : Bool → Json → Json → Prop where
  | flag {refused : Bool} {schema : Json} {references : List String} {keywords : Fields} {text : String}
    (h : Conjoined root references schema (.object keywords))
    (href : (Json.object keywords).reference? = none) (htype : NamesOnly .boolean refused keywords)
    (hword : ¬ IsFlagWord text) : Misstated root refused schema (.string text)
  | property {refused : Bool} {schema held sub : Json} {references : List String}
    {keywords fields : Fields} {name : String}
    (h : Conjoined root references schema (.object keywords))
    (href : (Json.object keywords).reference? = none) (hsub : AsksOfMember keywords name sub)
    (hmem : (name, held) ∈ fields) (hheld : Misstated root false sub held) :
    Misstated root refused schema (.object fields)
  | item {refused : Bool} {schema held sub : Json} {references : List String} {keywords : Fields}
    {items : List Json} {i : Nat} (h : Conjoined root references schema (.object keywords))
    (href : (Json.object keywords).reference? = none) (hsub : itemSchema? keywords i = some sub)
    (hitem : items[i]? = some held) (hheld : Misstated root (refused && items.length == 1) sub held) :
    Misstated root refused schema (.array items)
  | pieces {refused : Bool} {schema : Json} {references : List String} {keywords : Fields} {text : String}
    (h : Conjoined root references schema (.object keywords))
    (href : (Json.object keywords).reference? = none) (htype : NamesOnly .array refused keywords)
    (hpieces : Misstated root refused schema (splitItems (.string text))) :
    Misstated root refused schema (.string text)

section

variable {root inst : Json} {known pool : List String} {keywords : Fields} {refused : Bool}

/-- What passes keywords with a type and does not count as empty has the type. -/
theorem NamesOnly.holds {type : SchemaType} (h : NamesOnly type refused keywords)
    (href : (Json.object keywords).reference? = none)
    (hblank : refused = true → isBlankValue inst = false)
    (hpasses : Evaluation.Passes root known pool (.object keywords) inst) : type.holds inst = true := by
  obtain ⟨given, hgiven, honly⟩ := h
  obtain ⟨part, rfl, hentry⟩ := exists_fieldPart rfl (Fields.mem_of_get? hgiven)
  have hasserts := ((Evaluation.passes_keywords (reference?_object.1 href)).1 hpasses
    ("type", part) hentry).1
  obtain ⟨named, hnamed, hholds⟩ : Assertion.Holds "type" part.value inst :=
    (Evaluation.assertions_eq_nil_iff.1 hasserts).1
  rcases honly _ hnamed with hsame | ⟨hrefused, hnull⟩
  · exact SchemaType.name_injective hsame ▸ hholds
  · rw [SchemaType.name_injective hnull] at hholds
    cases inst with
    | null => cases hblank hrefused
    | _ => cases hholds

/-- A misstated value does not pass, whatever strict coercion makes of it. -/
theorem not_passes_of_misstated {schema value coerced : Json} (h : Misstated root refused schema value)
    (hschema : schema.allReferences ⊆ root.allReferences) (hvalue : value.ordered = true)
    (hcoerced : Coerced value coerced) (hblank : refused = true → isBlankValue coerced = false) :
    ¬ Evaluation.Passes root root.references root.references schema coerced := by
  intro hpasses
  -- along the way to the text: of every part on it only what coercion may have left is known
  induction h generalizing coerced with
  | flag h href htype hword =>
    obtain ⟨within, hlast⟩ := h.exists_passes (h.references_subset hschema).1 hpasses
    have hholds := htype.holds href hblank hlast
    rw [hcoerced.of_text hword] at hholds
    cases hholds
  | @property refused schema held sub references keywords fields name h href hsub hmem _ ih =>
    obtain ⟨within, hlast⟩ := h.exists_passes (h.references_subset hschema).1 hpasses
    obtain ⟨f, rfl, hfields⟩ := hcoerced.of_object
    obtain ⟨hordered, hmembers⟩ := Json.ordered_object.1 hvalue
    have ho : Fields.Ordered (fields.map fun field => (field.1, f field)) := by
      rw [Fields.Ordered, List.map_map]
      exact hordered
    have hfield : (name, f (name, held)) ∈ fields.map fun field => (field.1, f field) :=
      List.mem_map.2 ⟨(name, held), hmem, rfl⟩
    have hinside := hsub.passes hfield (membersPass_of_passes href ho hlast)
    have hreferences := hsub.beneath.allReferences_subset
    exact ih (fun _ hr => (h.references_subset hschema).2 (hreferences hr)) (hmembers _ hmem)
      (hfields _ hmem) (fun hrefused => by cases hrefused) hinside
  | @item refused schema held sub references keywords items i h href hsub hitem _ ih =>
    obtain ⟨within, hlast⟩ := h.exists_passes (h.references_subset hschema).1 hpasses
    obtain ⟨f, rfl, hitems⟩ := hcoerced.of_array
    have hplace : (items.map f)[i]? = some (f held) := by
      rw [List.getElem?_map, hitem]
      rfl
    have hinside := itemsPass_of_passes href hlast i (f held) hplace sub hsub
    have hreferences := (beneath_of_itemSchema? hsub).allReferences_subset
    have hmem := List.mem_of_getElem? hitem
    refine ih (fun _ hr => (h.references_subset hschema).2 (hreferences hr))
      (Json.ordered_array.1 hvalue _ hmem) (hitems _ hmem) (fun hrefused => ?_) hinside
    rw [Bool.and_eq_true, beq_iff_eq] at hrefused
    obtain ⟨item, rfl⟩ := List.length_eq_one_iff.1 hrefused.2
    rw [List.mem_singleton.1 hmem]
    exact hblank hrefused.1
  | pieces h href htype _ ih =>
    obtain ⟨within, hlast⟩ := h.exists_passes (h.references_subset hschema).1 hpasses
    -- what passes here is an array, so the text was split
    have hsplit := hcoerced.of_split (htype.holds href hblank hlast)
    refine ih hschema (Json.ordered_array.2 fun item hitem => ?_) hsplit hblank hpasses
    obtain ⟨piece, -, rfl⟩ := List.mem_map.1 hitem
    rfl

end

/-! ## Queries -/

section

variable {options : Options} {raw : Json} {contract : Contract} {registry : Registry} {key : RouteKey}

/-- The coercers of a registry have the policy that the contract was compiled with. -/
theorem Registry.policy_of_coercer? {coercer : Coercer}
    (hcontract : Contract.ofDocument options raw = .ok contract)
    (hregistry : Registry.compile options raw = .ok registry)
    (h : registry.coercer? key = some coercer) : coercer.policy = options.coercion := by
  obtain ⟨entry, hentry, hcoercer⟩ := Option.bind_eq_some_iff.1 h
  rw [Registry.eq_ofDeclarations hcontract hregistry] at hentry
  obtain ⟨route, ⟨operation, -, -, hroute⟩, hsame⟩ := (Registry.comesFrom_compiled hentry).coercer
  obtain ⟨shared, own, -, -, hown⟩ := Contract.tables_of_routeOf hroute
  rw [hcoercer, hown, Contract.coercerOf] at hsame
  split at hsame
  · cases hsame
    unfold Contract.ofDocument at hcontract
    dsimp only at hcontract
    split at hcontract
    · cases hcontract
    · cases hcontract
      rfl
  · cases hsame

end

theorem ordered_insertNested {value : Json} (hvalue : value.ordered = true) {steps : List String}
    {target : Fields} (htarget : (Json.object target).ordered = true) :
    (Json.object (insertNested value steps target)).ordered = true := by
  induction steps generalizing target with
  | nil => exact htarget
  | cons step more ih =>
    cases more with
    | nil => exact ordered_insert htarget hvalue
    | cons next more =>
      rw [insertNested_cons_cons]
      refine ordered_insert htarget (ih ?_)
      unfold innerFields
      split
      · rename_i hinner
        exact (Json.ordered_object.1 htarget).2 _ (Fields.mem_of_get? hinner)
      · rfl

theorem ordered_nestFields {input : Fields} (h : ∀ field ∈ input, field.2.ordered = true) :
    (Json.object (nestFields input)).ordered = true := by
  induction input using List.reverseRecOn with
  | nil => rfl
  | append_singleton input field ih =>
    rw [nestFields_concat]
    exact ordered_insertNested (h field (by simp)) (ih fun other hother => h other (by simp [hother]))

theorem occurrences_congr {fields others : Fields} (h : fields.map Prod.fst = others.map Prod.fst)
    (name : String) : occurrences name fields = occurrences name others := by
  have hkeys : ∀ fields : Fields, occurrences name fields =
      (fields.map Prod.fst).countP fun key => lowerCase key = name := by
    intro fields
    rw [List.countP_map]
    rfl
  rw [hkeys, hkeys, h]

/-- A value of a nested query is at its place in the query as it is checked, coerced. -/
theorem exists_coerced {coercer : Option Coercer} {input before after : Fields} {key : String} {value : Json}
    (hpolicy : ∀ given, coercer = some given → given.policy = .strict)
    (hsplit : nestFields input = before ++ (key, value) :: after) :
    ∃ first coerced last, normalizeQuery coercer input = first ++ (key, coerced) :: last ∧
      first.map Prod.fst = before.map Prod.fst ∧ Coerced value coerced := by
  cases coercer with
  | none => exact ⟨before, value, after, hsplit, rfl, .same value⟩
  | some given =>
    have hstrict := hpolicy given rfl
    have hcoerce : normalizeQuery (some given) input =
        (nestFields input).map (coerceField .strict fun key => given.schemas.get? (lowerCase key)) := by
      rw [normalizeQuery, Coercer.coerce_eq, hstrict]
      rfl
    have hfield : coerceField .strict (fun key => given.schemas.get? (lowerCase key)) (key, value) =
        (key, (coerceField .strict (fun key => given.schemas.get? (lowerCase key)) (key, value)).2) :=
      Prod.ext (coerceField_fst _) rfl
    rw [hcoerce, hsplit, List.map_append, List.map_cons, hfield]
    refine ⟨_, _, _, rfl, ?_, coerced_coerceField (key, value)⟩
    rw [List.map_map]
    exact List.map_congr_left fun field _ => coerceField_fst field

/-- A query with a text that is no flag where the schema of a parameter asks for one has a problem, if the
parameter takes the value that the text stands in. -/
theorem Validator.misstated_reported {options : Options} {raw : Json} {validator : Validator}
    (hcompiled : Validator.ofDocument options raw = .ok validator) (hpolicy : options.coercion = .strict)
    {path method : String} {input before after : Fields} {key : String} {value : Json}
    {parameter : QueryParameter} (hinput : (Json.object input).ordered = true)
    (hsplit : nestFields input = before ++ (key, value) :: after)
    (htaker : taker? (validator.registry.parameters (.of path method)) before key = some parameter)
    (hmisstated : Misstated parameter.schema.root (!parameter.allowEmptyValue) parameter.schema.root value)
    (strict : Bool) (exclusions : List String) :
    (validator.checkQuery path method strict exclusions input).errors ≠ none := by
  intro herrors
  have hcoercers : ∀ given, validator.registry.coercer? (.of path method) = some given →
      given.policy = .strict := by
    intro given hgiven
    have hregistry := Validator.registry_of_ofDocument hcompiled
    obtain ⟨contract, hcontract, -⟩ := exists_of_bind_ok hregistry
    exact (Registry.policy_of_coercer? hcontract hregistry hgiven).trans hpolicy
  obtain ⟨first, coerced, last, hnormalized, hkeys, hcoerced⟩ := exists_coerced hcoercers hsplit
  have hholds := ((validator.checkQuery_silent path method strict exclusions input).1.1 herrors).1 first key
    coerced last hnormalized
  have hown : taker? (validator.registry.parameters (.of path method)) first key = some parameter := by
    rw [taker?, occurrences_congr hkeys]
    exact htaker
  rw [FieldHolds, hown] at hholds
  obtain ⟨hblank, haccepts⟩ := hholds
  have hvalue : value.ordered = true := by
    have hnested := (Json.ordered_object.1 (ordered_nestFields (Json.ordered_object.1 hinput).2)).2
    exact hnested (key, value) (hsplit ▸ by simp)
  refine not_passes_of_misstated hmisstated (List.Subset.refl _) hvalue hcoerced (fun hrefused => ?_)
    ((CompiledSchema.accepts_iff _ _).1 haccepts).1
  rw [Bool.not_eq_true'] at hrefused
  exact hblank.resolve_left fun hallowed => by rw [hrefused] at hallowed; cases hallowed

/-! ## A flag of an object -/

/-- A schema with a flag inside. -/
def withFlag (flag : Json) : Json :=
  .object [("properties", .object [("flag", flag)]), ("type", .string "object")]

def switchOperation (flag : Json) : Json :=
  .object
    [("parameters", .array [optionalJson "filter" (withFlag flag)]), ("responses", .object [])]

def switchDocument (flag : Json) : Json :=
  .object [("paths", .object [("/a", .object [("get", switchOperation flag)])])]

def strictOptions : Options := { Options.defaults with coercion := .strict }

/-- The types of a flag, which may be null or not. -/
def flagTypes (nullable : Bool) : Json :=
  if nullable then .strings ["boolean", "null"] else .string "boolean"

/-- The schema of a flag before contracts are prepared, and after. -/
def flagRaw (nullable : Bool) : Json :=
  if nullable then .object [("nullable", .bool true), ("type", .string "boolean")]
  else .object [("type", .string "boolean")]

def flagType (nullable : Bool) : Json := .object [("type", flagTypes nullable)]

def switchSchema (nullable : Bool) : Json := withFlag (flagType nullable)

def switchContract (nullable : Bool) : Contract :=
  ⟨switchDocument (flagType nullable), [("/a", .object [("get", switchOperation (flagType nullable))])],
    none, .strict⟩

theorem switchContract_ofDocument (nullable : Bool) :
    Contract.ofDocument strictOptions (switchDocument (flagRaw nullable)) = .ok (switchContract nullable) := by
  cases nullable <;> rfl

open Evaluation in
theorem passes_metaSchema_flagType (nullable : Bool) (known pool : List String) :
    Passes metaSchema known pool metaSchema (flagType nullable) := by
  refine passes_metaSchema_type (passes_typeShape ?_)
  cases nullable with
  | false => exact .inl (passes_name .boolean)
  | true =>
    have hdistinct : [SchemaType.boolean, .null].Nodup := by decide
    exact .inr (passes_names (by simp) hdistinct)

open Evaluation in
theorem passes_metaSchema_switch (nullable : Bool) (known pool : List String) :
    Passes metaSchema known pool metaSchema (switchSchema nullable) := by
  have hordered : Fields.Ordered [("properties", .object [("flag", flagType nullable)]),
      ("type", .string "object")] := by
    cases nullable <;> decide
  refine (passes_metaSchema_iff hordered).2 fun keyword value hmem shape hshape => ?_
  simp only [List.mem_cons, Prod.mk.injEq, List.not_mem_nil, or_false] at hmem
  rcases hmem with ⟨rfl, rfl⟩ | ⟨rfl, rfl⟩
  · have htable : Fields.get? "properties" MetaSchema.keywords =
        some (MetaSchema.tableOf MetaSchema.anySchema) := rfl
    cases htable.symm.trans hshape
    refine passes_table_iff.2 fun name inner hinner => passes_anySchema fun pool => ?_
    cases List.mem_singleton.1 hinner
    exact passes_metaSchema_flagType nullable known pool
  · cases get?_type_keywords.symm.trans hshape
    exact passes_typeShape (.inl (passes_name .object))

theorem foreignFault?_switch (nullable : Bool) : foreignFault? (switchSchema nullable) = none := by
  have hflag : nestedSchemas (flagType nullable) = [] := by
    rw [nestedSchemas]
    cases nullable <;> rfl
  have hnested : nestedSchemas (switchSchema nullable) = [flagType nullable] := by
    rw [switchSchema, withFlag, nestedSchemas]
    show flagType nullable :: (nestedSchemas (flagType nullable) ++ []) = _
    rw [hflag]
    rfl
  unfold foreignFault?
  rw [hnested]
  rfl

theorem keywordFault?_switch (nullable : Bool) : keywordFault? (switchSchema nullable) = none := by
  have hflag : ∀ root pool, checkKeywords root pool (flagType nullable) = .ok ⟨pool, Nat.le_refl _⟩ := by
    intro root pool
    rw [flagType, checkKeywords]
    cases nullable <;> rfl
  have hrequired : (Json.fieldParts (.object
      [("properties", .object [("flag", flagType nullable)]), ("type", .string "object")])).flatMap
      (fun entry => keywordRequirements
        [("properties", .object [("flag", flagType nullable)]), ("type", .string "object")] entry.1 entry.2) =
      [.holds ⟨flagType nullable, by simp; omega⟩] := rfl
  unfold keywordFault? switchSchema withFlag
  rw [checkKeywords]
  simp only [Fields.get?_cons, hrequired, List.foldlM, hflag]
  rfl

section

variable (root : Json) (pool : List String)

theorem searchCases_text (text : String) :
    searchCases root pool (.string text) = some ⟨pool, Nat.le_refl _⟩ := by
  rw [searchCases]
  all_goals simp

theorem searchCases_flagTypes (nullable : Bool) :
    searchCases root pool (flagTypes nullable) = some ⟨pool, Nat.le_refl _⟩ := by
  cases nullable with
  | false => exact searchCases_text root pool "boolean"
  | true =>
    show searchCases root pool (.array [.string "boolean", .string "null"]) = _
    rw [searchCases]
    simp [Json.itemParts, searchCases_text]

theorem searchCases_flagType (nullable : Bool) :
    searchCases root pool (flagType nullable) = some ⟨pool, Nat.le_refl _⟩ := by
  rw [flagType, searchCases]
  simp [Json.fieldParts, searchCases_flagTypes, Fields.hasKey, Fields.get?_cons, Json.reference?,
    Json.getString?, Json.get?, isDataKeyword, dataKeywords, casesKeyword]

theorem searchCases_flagTable (nullable : Bool) :
    searchCases root pool (.object [("flag", flagType nullable)]) = some ⟨pool, Nat.le_refl _⟩ := by
  rw [searchCases]
  simp [Json.fieldParts, searchCases_flagType, Fields.hasKey, Fields.get?_cons, Json.reference?,
    Json.getString?, Json.get?, isDataKeyword, dataKeywords, casesKeyword]

end

theorem reachesDiscriminator_switch (nullable : Bool) :
    reachesDiscriminator (switchSchema nullable) = false := by
  have hbare : withoutComponents (switchSchema nullable) = switchSchema nullable := rfl
  unfold reachesDiscriminator
  rw [hbare, switchSchema, withFlag, searchCases]
  simp [Json.fieldParts, searchCases_flagTable, searchCases_text, Fields.hasKey, Fields.get?_cons,
    Json.reference?, Json.getString?, Json.get?, isDataKeyword, dataKeywords, casesKeyword]

theorem CompiledSchema.compile_switch (nullable : Bool) (name : String) :
    CompiledSchema.compile name (switchSchema nullable) none =
      .ok ⟨name, switchSchema nullable, false⟩ := by
  have hroot : rootOf (switchSchema nullable) none = switchSchema nullable := rfl
  rw [compile_of_faultless hroot (foreignFault?_switch nullable)
    (metaFault?_of_passes (passes_metaSchema_switch nullable _ _)) (keywordFault?_switch nullable),
    reachesDiscriminator_switch]

def switchSources (nullable : Bool) : List (Parameter × Json) :=
  [(optionalParameter "filter" (switchSchema nullable), switchSchema nullable)]

def switchEntry (nullable : Bool) : QueryParameter :=
  ⟨"filter", false, false, ⟨"#/paths/a/get/parameters/filter", switchSchema nullable, false⟩⟩

def switchRoute (nullable : Bool) : Route :=
  ⟨"/a", none, [], [switchEntry nullable], (switchContract nullable).coercerOf (switchSources nullable)⟩

def switchValidator (nullable : Bool) : Validator :=
  ⟨.ofDeclarations [(.of "/a" "get", switchRoute nullable)], strictOptions⟩

theorem switchValidator_ofDocument (nullable : Bool) :
    Validator.ofDocument strictOptions (switchDocument (flagRaw nullable)) =
      .ok (switchValidator nullable) := by
  have hname : lowerCase "filter" = "filter" := by decide +kernel
  have hparameters : (switchContract nullable).compileParameters "#/paths/a/get" (switchSources nullable) =
      .ok [switchEntry nullable] := by
    show ((switchContract nullable).compileSchema "#/paths/a/get/parameters/filter"
      (switchSchema nullable) >>= fun _ => _) = _
    have hschema : (switchContract nullable).compileSchema "#/paths/a/get/parameters/filter"
        (switchSchema nullable) =
          .ok ⟨"#/paths/a/get/parameters/filter", switchSchema nullable, false⟩ :=
      CompiledSchema.compile_switch nullable _
    rw [hschema]
    show Except.ok [QueryParameter.mk (lowerCase "filter") _ _ _] = _
    rw [hname]
    rfl
  have hdeclarations : (switchContract nullable).declarations =
      [.ok (.of "/a" "get", switchRoute nullable)] := by
    cases nullable with
    | false =>
      show [((switchContract false).compileParameters "#/paths/a/get" (switchSources false) >>=
        fun _ => _).map _] = _
      rw [hparameters]
      rfl
    | true =>
      show [((switchContract true).compileParameters "#/paths/a/get" (switchSources true) >>=
        fun _ => _).map _] = _
      rw [hparameters]
      rfl
  rw [Validator.ofDocument, Registry.compile_of_single (switchContract_ofDocument nullable) hdeclarations]
  rfl

/-- A query that gives the flag another word. -/
def maybeQuery : Fields := [("filter[flag]", .string "maybe")]

def maybeValue : Json := .object [("flag", .string "maybe")]

theorem nestFields_maybeQuery : nestFields maybeQuery = [("filter", maybeValue)] := by
  have hsteps : nameSteps "filter[flag]" = ["filter", "flag"] := by decide +kernel
  show insertNested (.string "maybe") (nameSteps "filter[flag]") [] = _
  rw [hsteps]
  rfl

theorem maybe_not_flagWord : ¬ IsFlagWord "maybe" := by
  unfold IsFlagWord
  decide +kernel

theorem switchValidator_parameters (nullable : Bool) :
    (switchValidator nullable).registry.parameters (.of "/a" "get") = [switchEntry nullable] := by
  simp [switchValidator, Registry.ofDeclarations, Registry.declare, Registry.parameters, Registry.get?,
    switchRoute]

theorem switchValidator_taker (nullable : Bool) :
    taker? ((switchValidator nullable).registry.parameters (.of "/a" "get")) [] "filter" =
      some (switchEntry nullable) := by
  have hname : lowerCase "filter" = "filter" := by decide +kernel
  rw [switchValidator_parameters, taker?, hname]
  rfl

/-- A flag that may not be null is misstated by another word. -/
theorem plainFlag_misstated :
    Validator.ofDocument strictOptions (switchDocument (flagRaw false)) = .ok (switchValidator false) ∧
      strictOptions.coercion = .strict ∧ (Json.object maybeQuery).ordered = true ∧
      nestFields maybeQuery = [] ++ ("filter", maybeValue) :: [] ∧
      taker? ((switchValidator false).registry.parameters (.of "/a" "get")) [] "filter" =
        some (switchEntry false) ∧
      Misstated (switchEntry false).schema.root (!(switchEntry false).allowEmptyValue)
        (switchEntry false).schema.root maybeValue ∧
      ∀ strict exclusions,
        ((switchValidator false).checkQuery "/a" "get" strict exclusions maybeQuery).errors ≠ none := by
  have hcompiled := switchValidator_ofDocument false
  have htaker := switchValidator_taker false
  have hmisstated : Misstated (switchEntry false).schema.root (!(switchEntry false).allowEmptyValue)
      (switchEntry false).schema.root maybeValue := by
    have hmember : AsksOfMember [("properties", .object [("flag", flagType false)]),
        ("type", .string "object")] "flag" (flagType false) := .inl List.mem_cons_self
    refine .property (.refl _) rfl hmember List.mem_cons_self ?_
    refine .flag (.refl _) rfl ⟨.string "boolean", rfl, fun name hname => ?_⟩ maybe_not_flagWord
    exact .inl (List.mem_singleton.1 hname)
  refine ⟨hcompiled, rfl, rfl, nestFields_maybeQuery, htaker, hmisstated, fun strict exclusions => ?_⟩
  exact Validator.misstated_reported hcompiled rfl rfl nestFields_maybeQuery htaker hmisstated strict exclusions

theorem passes_switch {root : Json} {known pool : List String} :
    Evaluation.Passes root known pool (switchSchema true) (.object [("flag", .null)]) := by
  have hflag : ∀ pool, Evaluation.Passes root known pool (flagType true) .null := by
    refine fun pool => (Evaluation.passes_keywords (by simp [Fields.get?_cons])).2 fun ⟨key, part⟩ hentry => ?_
    obtain ⟨rfl, hpart⟩ := Prod.mk.inj (List.mem_singleton.1 (mem_fieldParts_object.1 hentry))
    rw [hpart]
    exact ⟨rfl, asks_of_nil rfl⟩
  refine (Evaluation.passes_keywords (by simp [Fields.get?_cons])).2 fun ⟨key, part⟩ hentry => ?_
  have hmem := mem_fieldParts_object.1 hentry
  simp only [List.mem_cons, Prod.mk.injEq, List.not_mem_nil, or_false] at hmem
  rcases hmem with ⟨rfl, hpart⟩ | ⟨rfl, hpart⟩
  · have hordered : Fields.Ordered [("flag", Json.null)] := by decide
    refine ⟨rfl, (asks_properties hordered (by rw [hpart]; rfl) (by rw [hpart]; rfl) rfl).2 ?_⟩
    intro name value hfield sub hsub
    cases List.mem_singleton.1 hfield
    cases hsub
    exact hflag known
  · rw [hpart]
    exact ⟨rfl, asks_of_nil rfl⟩

/-- The same word is let pass for a flag that may be null: it becomes null. -/
theorem nullableFlag_passes :
    ∃ validator, Validator.ofDocument strictOptions (switchDocument (flagRaw true)) = .ok validator ∧
      strictOptions.coercion = .strict ∧ nestFields maybeQuery = [("filter", maybeValue)] ∧
      ¬ IsFlagWord "maybe" ∧
      (validator.registry.parameters (.of "/a" "get")).map (fun parameter => parameter.schema.root) =
        [switchSchema true] ∧ declaredType? (flagType true) = some "boolean" ∧
      (validator.checkQuery "/a" "get" true [] maybeQuery).errors = none := by
  have hname : lowerCase "filter" = "filter" := by decide +kernel
  have hcoercer : (switchValidator true).registry.coercer? (.of "/a" "get") =
      some (.ofSchemas .strict [("filter", switchSchema true)]) := by
    have hinline : inlineSchema (switchContract true).document (switchSchema true) =
        switchSchema true := inlineWith_of_inline rfl
    have hroute : (switchValidator true).registry.coercer? (.of "/a" "get") =
        (switchContract true).coercerOf (switchSources true) := by
      simp [switchValidator, Registry.ofDeclarations, Registry.declare, Registry.coercer?, Registry.get?,
        switchRoute]
    rw [hroute]
    show some (Coercer.ofSchemas .strict
      [("filter", inlineSchema (switchContract true).document (switchSchema true))]) = _
    rw [hinline]
  have hnormalized : ((switchValidator true).checkQuery "/a" "get" true [] maybeQuery).normalized =
      [("filter", .object [("flag", .null)])] := by
    have hschema : (Coercer.ofSchemas .strict [("filter", switchSchema true)]).schemas.get?
        (lowerCase "filter") = some (switchSchema true) := by
      show (Fields.ofList [(lowerCase "filter", switchSchema true)]).get? (lowerCase "filter") = _
      rw [hname]
      rfl
    have hflag : coerceValue .strict (flagType true) (.string "maybe") = .null := by
      rw [coerceValue_boolean rfl]
      exact coerceFlag_of_not_word maybe_not_flagWord
    have hvalue : coerceValue .strict (switchSchema true) maybeValue =
        .object [("flag", .null)] := by
      rw [coerceValue_object rfl]
      show Json.object [("flag", coerceValue .strict (flagType true) (.string "maybe"))] = _
      rw [hflag]
    show normalizeQuery ((switchValidator true).registry.coercer? (.of "/a" "get")) maybeQuery = _
    rw [hcoercer, normalizeQuery, nestFields_maybeQuery, Coercer.coerce_eq]
    show [coerceField .strict (fun key => (Coercer.ofSchemas .strict
      [("filter", switchSchema true)]).schemas.get? (lowerCase key)) ("filter", maybeValue)] = _
    rw [coerceField, hschema]
    show [("filter", coerceValue .strict (switchSchema true) maybeValue)] = _
    rw [hvalue]
  refine ⟨switchValidator true, switchValidator_ofDocument true, rfl, nestFields_maybeQuery,
    maybe_not_flagWord, ?_, rfl, ?_⟩
  · rw [switchValidator_parameters]
    rfl
  · refine reported_eq_none_iff.2 ?_
    show checkFields true [] ((switchValidator true).registry.parameters (.of "/a" "get"))
      ((switchValidator true).checkQuery "/a" "get" true [] maybeQuery).normalized = []
    rw [hnormalized, switchValidator_parameters, checkFields, hname]
    show valueErrors (switchEntry true) "filter" (.object [("flag", .null)]) ++ [] = []
    rw [List.append_nil, valueErrors_eq_nil_iff]
    exact ⟨.inr rfl, (CompiledSchema.accepts_iff _ _).2 ⟨passes_switch, fun h => by cases h⟩⟩

end ApiContract
