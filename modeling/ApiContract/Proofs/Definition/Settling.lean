import ApiContract.Definition.Reading
import ApiContract.Definition.Writing
import ApiContract.Options
import ApiContract.Proofs.Definition.Records

/-! # Definitions that settle

A definition may be given in several forms: as an object or as the list of its values, with fields left out,
with keys that mean nothing, with null for what is not there. It is written in one form, and that form is read
as the same definition.

* `Settles`: what is read from a value is read again from what is written of it.
* `settles_list`, `settles_table`, `settles_optional`, `settles_orReference`: the shapes that hold others.
* `settles_parameter`, `settles_requestBody`, `settles_response`, `settles_operation`, `settles_pathItem`: what a
  record is read with is kept by every field, and so the written form gives the record, field by field.
* `Options.decode_toJson`: options are read from their written form, whatever they are.
* `definitions_settle`: every kind of definition settles. -/

set_option autoImplicit false

namespace ApiContract

/-- What is read from a value is read again from what is written of it. -/
def Settles {α : Type} (decode : Json → Decoded α) (write : α → Json) (value : Json) : Prop :=
  ∀ x, decode value = .ok x → decode (write x) = .ok x

/-! ## Shapes -/

section

variable {α : Type} {decode : Json → Decoded α} {write : α → Json} {value : Json}

theorem decodeItems_map {xs : List α} (h : ∀ x ∈ xs, decode (write x) = .ok x) :
    decodeItems decode (xs.map write) = .ok xs := by
  induction xs with
  | nil => rfl
  | cons x rest ih =>
    rw [List.forall_mem_cons] at h
    rw [List.map_cons, decodeItems_cons, h.1, ih h.2]
    rfl

theorem settles_list (h : ∀ part, part.ordered = true → Settles decode write part)
    (hordered : value.ordered = true) :
    Settles (decodeList decode) (fun xs => .array (xs.map write)) value := by
  intro xs hread
  cases value with
  | array items =>
    refine decodeItems_map fun x hx => ?_
    obtain ⟨item, hitem, hitemRead⟩ := exists_item_of_decodeItems hread x hx
    exact h item (Json.ordered_array.1 hordered item hitem) x hitemRead
  | _ => cases hread

theorem decodeEntries_map {table : Table α} (h : ∀ entry ∈ table, decode (write entry.2) = .ok entry.2) :
    decodeEntries decode (table.map fun entry => (entry.1, write entry.2)) = .ok table := by
  induction table with
  | nil => rfl
  | cons entry rest ih =>
    rw [List.forall_mem_cons] at h
    rw [List.map_cons, decodeEntries_cons, h.1, ih h.2]
    rfl

/-- A table has the keys of the object that it is read from, in their order. So it is written in that order. -/
theorem settles_table (h : ∀ part, part.ordered = true → Settles decode write part)
    (hordered : value.ordered = true) : Settles (decodeTable decode) (Table.toJson write) value := by
  intro table hread
  cases value with
  | object fields =>
    obtain ⟨hkeys, hparts⟩ := Json.ordered_object.1 hordered
    have hwritten : Fields.Ordered (table.map fun entry => (entry.1, write entry.2)) := by
      refine Fields.ordered_of_keys ?_ hkeys
      rw [List.map_map, ← keys_of_decodeEntries hread]
      rfl
    rw [Table.toJson, Json.objectOf, Fields.ofList_of_ordered hwritten]
    refine decodeEntries_map fun entry hentry => ?_
    obtain ⟨field, hfield, hfieldRead⟩ := exists_field_of_decodeEntries hread entry hentry
    exact h field.2 (hparts field hfield) entry.2 hfieldRead
  | _ => cases hread

theorem decodeOptional_of_ne_null (h : value ≠ .null) :
    decodeOptional decode value = (decode value).map some := by
  cases value with
  | null => exact absurd rfl h
  | _ => rfl

/-- Nothing is written as null, so null must not be what something is written as. -/
theorem settles_optional (hnull : ∀ x, decode .null ≠ .ok x) (h : Settles decode write value) :
    Settles (decodeOptional decode) (fun x => .orNull (x.map write)) value := by
  intro x hread
  by_cases hvalue : value = .null
  · subst hvalue
    cases hread
    rfl
  · rw [decodeOptional_of_ne_null hvalue] at hread
    obtain ⟨item, hitem, rfl⟩ := exists_of_map_ok hread
    have hwritten := h item hitem
    have hne : write item ≠ .null := fun heq => hnull item (heq ▸ hwritten)
    show decodeOptional decode (write item) = _
    rw [decodeOptional_of_ne_null hne, hwritten]
    rfl

theorem settles_optional_any (value : Json) : Settles (decodeOptional decodeAny) Json.orNull value := by
  intro x hread
  cases value <;> cases hread <;> rfl

/-- A reference is written with its key, and an item without one. -/
theorem settles_orReference (hkey : ∀ x, (write x).getString? "$ref" = none) (h : Settles decode write value) :
    Settles (decodeOrReference decode) (·.toJson write) value := by
  intro x hread
  rw [decodeOrReference] at hread
  cases htarget : value.getString? "$ref" with
  | some target =>
    rw [htarget] at hread
    cases hread
    rfl
  | none =>
    rw [htarget] at hread
    cases hitem : decode value with
    | error e => simp only [hitem, reduceCtorEq] at hread
    | ok item =>
      simp only [hitem] at hread
      cases hread
      show decodeOrReference decode (write item) = .ok (.item item)
      rw [decodeOrReference, hkey]
      simp only [h item hitem]

end

theorem decodeText_string (text : String) : decodeText (.string text) = .ok text := rfl

theorem decodeFlag_bool (flag : Bool) : decodeFlag (.bool flag) = .ok flag := rfl

/-! ## Content -/

theorem settles_mediaType {value : Json} (hordered : value.ordered = true) :
    Settles decodeMediaType MediaType.toJson value := by
  intro media hread
  have hschema : decodeOptional decodeAny (.orNull media.schema) = .ok media.schema := by
    refine decodeRecord_keeps (fun m => decodeOptional decodeAny (.orNull m.schema) = .ok m.schema)
      hordered ?_ rfl hread
    intro field hfield part before after _ _ hstore
    rw [List.mem_singleton.1 hfield] at hstore
    obtain ⟨schema, hpart, rfl⟩ := Field.exists_of_defaulted hstore
    exact settles_optional_any part schema hpart
  rw [MediaType.toJson, decodeMediaType, decodeRecord_object rfl,
    decodeNamed_stored rfl (Field.store_defaulted hschema _)]
  rfl

theorem settles_content {value : Json} (hordered : value.ordered = true) :
    Settles decodeContent (Table.toJson MediaType.toJson) value :=
  settles_table (fun _ => settles_mediaType) hordered

/-! ## Parameters -/

theorem ParameterLocation.ofWord_word (location : ParameterLocation) : ofWord location.word = location := by
  cases location <;> rfl

theorem Parameter.toJson_eq (parameter : Parameter) : parameter.toJson = .object
    [("allowEmptyValue", .bool parameter.allowEmptyValue), ("in", .string parameter.location.word),
      ("name", .string parameter.name), ("required", .bool parameter.required),
      ("schema", .orNull parameter.schema)] := by
  simp (disch := decide +kernel) only [Parameter.toJson, Json.objectOf, Fields.ofList, List.foldl_cons,
    List.foldl_nil, Fields.insert_nil, Fields.insert_of_lt, Fields.insert_of_gt]

theorem settles_parameter {value : Json} (hordered : value.ordered = true) :
    Settles decodeParameter Parameter.toJson value := by
  intro parameter hread
  have hschema : decodeOptional decodeAny (.orNull parameter.schema) = .ok parameter.schema := by
    refine decodeRecord_keeps (fun p => decodeOptional decodeAny (.orNull p.schema) = .ok p.schema)
      hordered ?_ rfl hread
    intro field hfield part before after _ hbefore hstore
    simp only [List.mem_cons, List.not_mem_nil, or_false] at hfield
    rcases hfield with rfl | rfl | rfl | rfl | rfl
    · obtain ⟨name, -, rfl⟩ := Field.exists_of_needed hstore
      exact hbefore
    · obtain ⟨location, -, rfl⟩ := Field.exists_of_needed hstore
      exact hbefore
    · obtain ⟨required, -, rfl⟩ := Field.exists_of_defaulted hstore
      exact hbefore
    · obtain ⟨allowEmptyValue, -, rfl⟩ := Field.exists_of_defaulted hstore
      exact hbefore
    · obtain ⟨schema, hpart, rfl⟩ := Field.exists_of_defaulted hstore
      exact settles_optional_any part schema hpart
  have hlocation : decodeLocation (.string parameter.location.word) = .ok parameter.location :=
    congrArg Except.ok (ParameterLocation.ofWord_word parameter.location)
  rw [Parameter.toJson_eq, decodeParameter, decodeRecord_object rfl,
    decodeNamed_stored rfl (Field.store_defaulted (decodeFlag_bool _) _),
    decodeNamed_stored rfl (Field.store_needed hlocation _),
    decodeNamed_stored rfl (Field.store_needed (decodeText_string _) _),
    decodeNamed_stored rfl (Field.store_defaulted (decodeFlag_bool _) _),
    decodeNamed_stored rfl (Field.store_defaulted hschema _)]
  rfl

/-! ## Bodies and responses -/

theorem RequestBody.toJson_eq (body : RequestBody) : body.toJson = .object
    [("content", body.content.toJson MediaType.toJson), ("required", .bool body.required)] :=
  congrArg Json.object (Fields.ofList_of_ordered
    (@Fields.ordered_of_keys _ ["content", "required"] rfl (by decide +kernel)))

theorem settles_requestBody {value : Json} (hordered : value.ordered = true) :
    Settles decodeRequestBody RequestBody.toJson value := by
  intro body hread
  have hcontent : decodeContent (body.content.toJson MediaType.toJson) = .ok body.content := by
    refine decodeRecord_keeps (fun b => decodeContent (b.content.toJson MediaType.toJson) = .ok b.content)
      hordered ?_ rfl hread
    intro field hfield part before after hpart hbefore hstore
    rw [List.mem_cons, List.mem_singleton] at hfield
    rcases hfield with rfl | rfl
    · obtain ⟨content, hcontent, rfl⟩ := Field.exists_of_defaulted hstore
      exact settles_content hpart content hcontent
    · obtain ⟨required, -, rfl⟩ := Field.exists_of_defaulted hstore
      exact hbefore
  rw [RequestBody.toJson_eq, decodeRequestBody, decodeRecord_object rfl,
    decodeNamed_stored rfl (Field.store_defaulted hcontent _),
    decodeNamed_stored rfl (Field.store_defaulted (decodeFlag_bool _) _)]
  rfl

theorem Response.toJson_eq (response : Response) : response.toJson = .object
    [("content", response.content.toJson MediaType.toJson)] := rfl

theorem settles_response {value : Json} (hordered : value.ordered = true) :
    Settles decodeResponse Response.toJson value := by
  intro response hread
  have hcontent : decodeContent (response.content.toJson MediaType.toJson) = .ok response.content := by
    refine decodeRecord_keeps (fun r => decodeContent (r.content.toJson MediaType.toJson) = .ok r.content)
      hordered ?_ rfl hread
    intro field hfield part before after hpart _ hstore
    rw [List.mem_singleton.1 hfield] at hstore
    obtain ⟨content, hcontent, rfl⟩ := Field.exists_of_defaulted hstore
    exact settles_content hpart content hcontent
  rw [Response.toJson_eq, decodeResponse, decodeRecord_object rfl,
    decodeNamed_stored rfl (Field.store_defaulted hcontent _)]
  rfl

/-! ## Operations -/

theorem getString?_ref_parameter (parameter : Parameter) : parameter.toJson.getString? "$ref" = none := by
  rw [Parameter.toJson_eq]
  rfl

theorem getString?_ref_requestBody (body : RequestBody) : body.toJson.getString? "$ref" = none := by
  rw [RequestBody.toJson_eq]
  rfl

theorem getString?_ref_response (response : Response) : response.toJson.getString? "$ref" = none := rfl

theorem settles_parameterOrReference {value : Json} (hordered : value.ordered = true) :
    Settles (decodeOrReference decodeParameter) (·.toJson Parameter.toJson) value :=
  settles_orReference getString?_ref_parameter (settles_parameter hordered)

theorem settles_requestBodyOrReference {value : Json} (hordered : value.ordered = true) :
    Settles (decodeOrReference decodeRequestBody) (·.toJson RequestBody.toJson) value :=
  settles_orReference getString?_ref_requestBody (settles_requestBody hordered)

theorem settles_responseOrReference {value : Json} (hordered : value.ordered = true) :
    Settles (decodeOrReference decodeResponse) (·.toJson Response.toJson) value :=
  settles_orReference getString?_ref_response (settles_response hordered)

/-- Each part of an operation is read from its written form. -/
structure Operation.IsSettled (operation : Operation) : Prop where
  parameters : decodeList (decodeOrReference decodeParameter)
    (.array (operation.parameters.map (·.toJson Parameter.toJson))) = .ok operation.parameters
  requestBody : decodeOptional (decodeOrReference decodeRequestBody)
    (.orNull (operation.requestBody.map (·.toJson RequestBody.toJson))) = .ok operation.requestBody
  responses : decodeTable (decodeOrReference decodeResponse)
    (operation.responses.toJson (·.toJson Response.toJson)) = .ok operation.responses

theorem Operation.toJson_eq (operation : Operation) : operation.toJson = .object
    [("parameters", .array (operation.parameters.map (·.toJson Parameter.toJson))),
      ("requestBody", .orNull (operation.requestBody.map (·.toJson RequestBody.toJson))),
      ("responses", operation.responses.toJson (·.toJson Response.toJson))] :=
  congrArg Json.object (Fields.ofList_of_ordered
    (@Fields.ordered_of_keys _ ["parameters", "requestBody", "responses"] rfl (by decide +kernel)))

theorem isSettled_of_decodeOperation {value : Json} {operation : Operation} (hordered : value.ordered = true)
    (h : decodeOperation value = .ok operation) : operation.IsSettled := by
  refine decodeRecord_keeps Operation.IsSettled hordered ?_ ⟨rfl, rfl, rfl⟩ h
  intro field hfield part before after hpart hbefore hstore
  simp only [List.mem_cons, List.not_mem_nil, or_false] at hfield
  rcases hfield with rfl | rfl | rfl
  · obtain ⟨parameters, hread, rfl⟩ := Field.exists_of_defaulted hstore
    exact { hbefore with
      parameters := settles_list (fun _ => settles_parameterOrReference) hpart parameters hread }
  · obtain ⟨requestBody, hread, rfl⟩ := Field.exists_of_defaulted hstore
    have hnull : ∀ x, decodeOrReference decodeRequestBody .null ≠ .ok x := nofun
    exact { hbefore with
      requestBody := settles_optional hnull (settles_requestBodyOrReference hpart) requestBody hread }
  · obtain ⟨responses, hread, rfl⟩ := Field.exists_of_defaulted hstore
    exact { hbefore with
      responses := settles_table (fun _ => settles_responseOrReference) hpart responses hread }

theorem settles_operation {value : Json} (hordered : value.ordered = true) :
    Settles decodeOperation Operation.toJson value := by
  intro operation hread
  have hsettled := isSettled_of_decodeOperation hordered hread
  rw [Operation.toJson_eq, decodeOperation, decodeRecord_object rfl,
    decodeNamed_stored rfl (Field.store_defaulted hsettled.parameters _),
    decodeNamed_stored rfl (Field.store_defaulted hsettled.requestBody _),
    decodeNamed_stored rfl (Field.store_defaulted hsettled.responses _)]
  rfl

/-! ## Path items -/

theorem PathItem.toJson_eq (item : PathItem) : item.toJson = .object
    [("delete", .orNull (item.operation .delete)), ("get", .orNull (item.operation .get)),
      ("head", .orNull (item.operation .head)), ("options", .orNull (item.operation .options)),
      ("parameters", .array item.parameters), ("patch", .orNull (item.operation .patch)),
      ("post", .orNull (item.operation .post)), ("put", .orNull (item.operation .put)),
      ("trace", .orNull (item.operation .trace))] := by
  simp (disch := decide +kernel) only [PathItem.toJson, Method.all, Method.name, List.map_cons, List.map_nil,
    List.cons_append, List.nil_append, Json.objectOf, Fields.ofList, List.foldl_cons, List.foldl_nil,
    Fields.insert_nil, Fields.insert_of_lt, Fields.insert_of_gt]

theorem settles_pathItem {value : Json} (hordered : value.ordered = true) :
    Settles decodePathItem PathItem.toJson value := by
  intro item hread
  have hmethod : ∀ method,
      decodeOptional decodeAny (.orNull (item.operation method)) = .ok (item.operation method) := by
    refine decodeRecord_keeps (fun i => ∀ method,
      decodeOptional decodeAny (.orNull (i.operation method)) = .ok (i.operation method))
      hordered ?_ (fun _ => rfl) hread
    intro field hfield part before after _ hbefore hstore
    rcases List.mem_append.1 hfield with hfield | hfield
    · obtain ⟨given, -, rfl⟩ := List.mem_map.1 hfield
      obtain ⟨raw, hraw, rfl⟩ := Field.exists_of_defaulted hstore
      intro method
      dsimp only
      split
      · exact settles_optional_any part raw hraw
      · exact hbefore method
    · rw [List.mem_singleton.1 hfield] at hstore
      obtain ⟨parameters, -, rfl⟩ := Field.exists_of_defaulted hstore
      exact hbefore
  have hstored : ∀ method record, (methodField method).store (.orNull (item.operation method)) record =
      .ok { record with operation := fun m => if m = method then item.operation method else record.operation m } :=
    fun method record => Field.store_defaulted (hmethod method) record
  have hparameters : decodeList decodeAny (.array item.parameters) = .ok item.parameters :=
    decodeItems_any item.parameters
  rw [PathItem.toJson_eq, decodePathItem, decodeRecord_object rfl, decodeNamed_stored rfl (hstored .delete _),
    decodeNamed_stored rfl (hstored .get _), decodeNamed_stored rfl (hstored .head _),
    decodeNamed_stored rfl (hstored .options _),
    decodeNamed_stored rfl (Field.store_defaulted hparameters _),
    decodeNamed_stored rfl (hstored .patch _), decodeNamed_stored rfl (hstored .post _),
    decodeNamed_stored rfl (hstored .put _), decodeNamed_stored rfl (hstored .trace _), decodeNamed]
  refine congrArg (fun operation => Except.ok (PathItem.mk operation item.parameters)) (funext fun method => ?_)
  cases method <;> rfl

/-! ## Options -/

theorem CoercionPolicy.decode_toJson (policy : CoercionPolicy) : decode policy.toJson = .ok policy := by
  cases policy <;> rfl

theorem Options.toJson_eq (options : Options) : options.toJson = .object
    [("coerceTypes", options.coercion.toJson), ("convertDatesToIsoString", .bool options.convertDates),
      ("setAdditionalPropertiesToFalse", .bool options.closeSchemas), ("strict", .bool options.strict)] := by
  simp (disch := decide +kernel) only [Options.toJson, Json.objectOf, Fields.ofList, List.foldl_cons,
    List.foldl_nil, Fields.insert_nil, Fields.insert_of_lt, Fields.insert_of_gt]

/-- Options of every kind are read from their written form. -/
theorem Options.decode_toJson (options : Options) : decode options.toJson = .ok options := by
  rw [Options.toJson_eq, decode, decodeRecord_object rfl,
    decodeNamed_stored rfl (Field.store_defaulted (CoercionPolicy.decode_toJson _) _),
    decodeNamed_stored rfl (Field.store_defaulted (decodeFlag_bool _) _),
    decodeNamed_stored rfl (Field.store_defaulted (decodeFlag_bool _) _),
    decodeNamed_stored rfl (Field.store_defaulted (decodeFlag_bool _) _)]
  rfl

/-! ## All kinds -/

/-- Reading settles in one pass: whatever form a definition is given in, what it is written as is read as the
same definition. Tables keep the order of the keys, so the keys of the value are in order, as parsing puts
them. -/
theorem definitions_settle {value : Json} (hordered : value.ordered = true) :
    Settles decodePathItem PathItem.toJson value ∧ Settles decodeOperation Operation.toJson value ∧
      Settles decodeParameter Parameter.toJson value ∧ Settles decodeRequestBody RequestBody.toJson value ∧
      Settles decodeResponse Response.toJson value ∧
      Settles (decodeOrReference decodeParameter) (·.toJson Parameter.toJson) value ∧
      Settles (decodeOrReference decodeRequestBody) (·.toJson RequestBody.toJson) value ∧
      Settles (decodeOrReference decodeResponse) (·.toJson Response.toJson) value ∧
      Settles Options.decode Options.toJson value :=
  ⟨settles_pathItem hordered, settles_operation hordered, settles_parameter hordered,
    settles_requestBody hordered, settles_response hordered, settles_parameterOrReference hordered,
    settles_requestBodyOrReference hordered, settles_responseOrReference hordered,
    fun options _ => options.decode_toJson⟩

/-- A value that can be read as every kind of definition: with a key for references that holds no text, records
given as lists, a location given as an object, nulls, and keys that mean nothing to most kinds. -/
def manifoldValue : Json :=
  .object
    [("$ref", .number (.int 5)),
     ("coerceTypes", .string "disabled"),
     ("content", .object [("application/json", .array [.string "schema"]), ("text/plain", .object [])]),
     ("get", .null),
     ("in", .object [("header", .null)]),
     ("name", .string "trace"),
     ("parameters", .array
       [.array [.string "id", .string "formData"], .object [("$ref", .string "#/components/parameters/id")]]),
     ("post", .number (.int 7)),
     ("requestBody", .array []),
     ("required", .bool true),
     ("responses", .object [("200", .array []), ("default", .object [("content", .object [])])]),
     ("schema", .null),
     ("strict", .bool false)]

theorem definitions_settle_manifoldValue : manifoldValue.ordered = true ∧
    (∃ x, decodePathItem manifoldValue = .ok x ∧ decodePathItem x.toJson = .ok x) ∧
    (∃ x, decodeOperation manifoldValue = .ok x ∧ decodeOperation x.toJson = .ok x) ∧
    (∃ x, decodeParameter manifoldValue = .ok x ∧ decodeParameter x.toJson = .ok x) ∧
    (∃ x, decodeRequestBody manifoldValue = .ok x ∧ decodeRequestBody x.toJson = .ok x) ∧
    (∃ x, decodeResponse manifoldValue = .ok x ∧ decodeResponse x.toJson = .ok x) ∧
    (∃ x, decodeOrReference decodeParameter manifoldValue = .ok (.item x) ∧
      decodeOrReference decodeParameter x.toJson = .ok (.item x)) ∧
    (∃ x, decodeOrReference decodeRequestBody manifoldValue = .ok (.item x) ∧
      decodeOrReference decodeRequestBody x.toJson = .ok (.item x)) ∧
    (∃ x, decodeOrReference decodeResponse manifoldValue = .ok (.item x) ∧
      decodeOrReference decodeResponse x.toJson = .ok (.item x)) ∧
    ∃ x, Options.decode manifoldValue = .ok x ∧ Options.decode x.toJson = .ok x := by
  have hordered : manifoldValue.ordered = true := by decide +kernel
  obtain ⟨h1, h2, h3, h4, h5, h6, h7, h8, h9⟩ := definitions_settle hordered
  exact ⟨hordered, ⟨_, rfl, h1 _ rfl⟩, ⟨_, rfl, h2 _ rfl⟩, ⟨_, rfl, h3 _ rfl⟩, ⟨_, rfl, h4 _ rfl⟩,
    ⟨_, rfl, h5 _ rfl⟩, ⟨_, rfl, h6 _ rfl⟩, ⟨_, rfl, h7 _ rfl⟩, ⟨_, rfl, h8 _ rfl⟩, ⟨_, rfl, h9 _ rfl⟩⟩

end ApiContract
