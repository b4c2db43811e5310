import ApiContract.Proofs.Query.Dereferencing

/-! # Places that coercion comes to

Coercion goes from a schema to the schemas of its properties and items, and from a value to its parts along
with them. At a place that it comes to, the node is coerced by the schema that governs the place. All other
nodes stay as they are.

* `IsCommaSeparated`: the pieces of a text.
* `coercePart`: a part, coerced by the schema for the parts of its site.
* `Governs`: the schema that governs a place of a value, where commas separate the items of a text.
* `leads_coerceValue`: a node that is governed by a schema is coerced by it.
* `leads_coerceValue_of_ungoverned`: a node that no schema governs stays.
* `coerceValue_changes`: which nodes change, and into what. -/

set_option autoImplicit false

namespace ApiContract

/-! ## Comma-separated texts -/

/-- A text is made of pieces without commas, with commas between them. -/
structure IsCommaSeparated (text : String) (pieces : List String) : Prop where
  nonempty : pieces ≠ []
  bare : ∀ piece ∈ pieces, ',' ∉ piece.toList
  joined : text.toList = [','].intercalate (pieces.map String.toList)

section

variable {text : String} {pieces : List String}

theorem IsCommaSeparated.splitItems_eq (h : IsCommaSeparated text pieces) :
    splitItems (.string text) = .array (pieces.map .string) := by
  have hsplit : text.toList.splitOn ',' = pieces.map String.toList := by
    rw [h.joined]
    exact List.splitOn_intercalate ',' (List.forall_mem_map.2 h.bare) (by simpa using h.nonempty)
  simp [splitItems, hsplit, Function.comp_def]

theorem exists_isCommaSeparated (text : String) : ∃ pieces, IsCommaSeparated text pieces := by
  refine ⟨(text.toList.splitOn ',').map String.ofList, ?_, ?_, ?_⟩
  · simp [List.splitOn_ne_nil]
  · refine List.forall_mem_map.2 fun piece hpiece => ?_
    rw [String.toList_ofList]
    exact not_mem_of_mem_splitOn hpiece
  · simp [List.map_map, Function.comp_def, List.intercalate_splitOn]

end

/-! ## Parts -/

/-- A part of a value, coerced by the schema for the parts of its site, if there is one. -/
def coercePart (policy : CoercionPolicy) (schema : Json) (site : Site) (part : Json) : Json :=
  match partSchema? schema site with
  | some inner => coerceValue policy inner part
  | none => part

section

variable {policy : CoercionPolicy} {schema inner value node : Json} {text : String} {pieces : List String}
  {steps : List String}

theorem coercePart_of_some {site : Site} (h : partSchema? schema site = some inner) :
    coercePart policy schema site = coerceValue policy inner := by
  funext part
  rw [coercePart, h]

theorem coercePart_of_none {site : Site} (h : partSchema? schema site = none) :
    coercePart policy schema site = id := by
  funext part
  rw [coercePart, h]
  rfl

theorem declaredType?_of_items (h : partSchema? schema .item = some inner) :
    declaredType? schema = some "array" :=
  (Option.ite_none_right_eq_some.1 h).1

/-- The fields of an object are coerced by the schemas for them, which only an object schema has. -/
theorem coerceValue_fields (policy : CoercionPolicy) (schema : Json) (fields : Fields) :
    coerceValue policy schema (.object fields) =
      .object (fields.map fun field => (field.1, coercePart policy schema (.property field.1) field.2)) := by
  rw [coerceValue_eq_coerceParts]
  by_cases hobject : declaredType? schema = some "object"
  · simp only [hobject, coerceParts]
    refine congrArg Json.object (List.map_congr_left fun field _ => ?_)
    rw [coercePart]
    cases partSchema? schema (.property field.1) <;> rfl
  · have hnone : ∀ key, coercePart policy schema (.property key) = id :=
      fun key => coercePart_of_none (by rw [partSchema?, if_neg hobject])
    have hsame : fields.map (fun field => (field.1, coercePart policy schema (.property field.1) field.2)) =
        fields := by simp [hnone]
    rw [hsame]
    unfold coerceParts
    split <;> simp_all [coerceScalar, splitItems]

/-- The items of a list are coerced by the schema for them, which only an array schema has. -/
theorem coerceValue_items (policy : CoercionPolicy) (schema : Json) (items : List Json) :
    coerceValue policy schema (.array items) = .array (items.map (coercePart policy schema .item)) := by
  rw [coerceValue_eq_coerceParts]
  by_cases harray : declaredType? schema = some "array"
  · simp only [harray, coerceParts, splitItems]
    cases hinner : partSchema? schema .item with
    | some inner => simp only [coercePart_of_some hinner, Option.map_some]
    | none => simp only [coercePart_of_none hinner, Option.map_none, List.map_id]
  · have hnone : coercePart policy schema .item = id :=
      coercePart_of_none (by rw [partSchema?, if_neg harray])
    rw [hnone, List.map_id]
    unfold coerceParts
    split <;> simp_all [coerceScalar]

/-- Neither parts nor text: nothing is coerced. -/
theorem coerceValue_of_plain (hobject : value.fields? = none) (hlist : value.items? = none)
    (htext : value.string? = none) : coerceValue policy schema value = value := by
  rw [coerceValue_eq_coerceParts]
  unfold coerceParts
  cases value with
  | object fields => cases hobject
  | array items => cases hlist
  | string text => cases htext
  | _ => split <;> simp [coerceScalar, splitItems]

/-- An array schema splits a text at its commas. -/
theorem coerceValue_pieces (htype : declaredType? schema = some "array")
    (htext : IsCommaSeparated text pieces) : coerceValue policy schema (.string text) =
      .array (pieces.map fun piece => coercePart policy schema .item (.string piece)) := by
  have hsplit : coerceValue policy schema (.string text) =
      coerceValue policy schema (.array (pieces.map .string)) := by
    rw [coerceValue_array htype, coerceValue_array htype, htext.splitItems_eq]
    rfl
  rw [hsplit, coerceValue_items, List.map_map]
  rfl

/-! ## Governed places -/

/-- At a place of a value coercion comes from a schema to another one: through the schemas of properties and
items, along the steps to the place. Where the schema asks for a list, the pieces of a text are its items. -/
inductive Governs : Json → Json → List String → Json → Json → Prop where
  | here (schema value : Json) : Governs schema value [] schema value
  | property {schema inner last value node : Json} {fields : Fields} {key : String} {steps : List String}
    (hmem : (key, value) ∈ fields) (hinner : partSchema? schema (.property key) = some inner)
    (h : Governs inner value steps last node) : Governs schema (.object fields) (key :: steps) last node
  | item {schema inner last value node : Json} {items : List Json} {i : Nat} {steps : List String}
    (hitem : items[i]? = some value) (hinner : partSchema? schema .item = some inner)
    (h : Governs inner value steps last node) :
    Governs schema (.array items) (naturalText i :: steps) last node
  | piece {schema inner last node : Json} {text piece : String} {pieces : List String} {i : Nat}
    {steps : List String} (htext : IsCommaSeparated text pieces) (hpiece : pieces[i]? = some piece)
    (hinner : partSchema? schema .item = some inner) (h : Governs inner (.string piece) steps last node) :
    Governs schema (.string text) (naturalText i :: steps) last node

/-- A node that is governed by a schema is coerced by it, in its place. -/
theorem leads_coerceValue (h : Governs schema value steps inner node) :
    (coerceValue policy schema value).Leads steps (coerceValue policy inner node) := by
  induction h with
  | here => exact .here _
  | property hmem hinner _ ih =>
    rw [coerceValue_fields]
    refine .member (List.mem_map.2 ⟨_, hmem, rfl⟩) ?_
    rwa [coercePart_of_some hinner]
  | item hitem hinner _ ih =>
    rw [coerceValue_items]
    refine .item (by rw [List.getElem?_map, hitem]; rfl) ?_
    rwa [coercePart_of_some hinner]
  | piece htext hpiece hinner _ ih =>
    rw [coerceValue_pieces (declaredType?_of_items hinner) htext]
    refine .item (by rw [List.getElem?_map, hpiece]; rfl) ?_
    dsimp only
    rwa [coercePart_of_some hinner]

/-- A node that no schema governs stays as it is: on the way to it there is a part that the schema around
has no schema for. -/
theorem leads_coerceValue_of_ungoverned (h : value.Leads steps node)
    (hnone : ∀ inner, ¬ Governs schema value steps inner node) :
    (coerceValue policy schema value).Leads steps node := by
  induction h generalizing schema with
  | here value => exact absurd (.here schema value) (hnone schema)
  | @member fields name value part steps hmem h ih =>
    rw [coerceValue_fields]
    refine .member (List.mem_map.2 ⟨_, hmem, rfl⟩) ?_
    cases hinner : partSchema? schema (.property name) with
    | some inner =>
      rw [coercePart_of_some hinner]
      exact ih fun last hlast => hnone last (.property hmem hinner hlast)
    | none => rwa [coercePart_of_none hinner]
  | @item items i value part steps hitem h ih =>
    rw [coerceValue_items]
    refine .item (by rw [List.getElem?_map, hitem]; rfl) ?_
    cases hinner : partSchema? schema .item with
    | some inner =>
      rw [coercePart_of_some hinner]
      exact ih fun last hlast => hnone last (.item hitem hinner hlast)
    | none => rwa [coercePart_of_none hinner]

/-! ## What nodes become -/

/-- What a schema makes of a node that it governs, apart from the parts of the node. Only a text becomes
something else, and only by a schema that declares what. -/
inductive NodeCoerced (policy : CoercionPolicy) (schema : Json) : Json → Json → Prop where
  | form {node result : Json} (htext : node.string? = none) (hform : node.SameForm result) :
    NodeCoerced policy schema node result
  | number {text : String} (htype : declaredType? schema = some "integer" ∨ declaredType? schema = some "number")
    (n : Number) : NodeCoerced policy schema (.string text) (.number n)
  | flag {text : String} (htype : declaredType? schema = some "boolean") (b : Bool) :
    NodeCoerced policy schema (.string text) (.bool b)
  | null {text : String} (htype : declaredType? schema = some "boolean") (hstrict : policy = .strict) :
    NodeCoerced policy schema (.string text) .null
  | pieces {text : String} {pieces : List String} (htype : declaredType? schema = some "array")
    (htext : IsCommaSeparated text pieces) : NodeCoerced policy schema (.string text)
      (.array (pieces.map fun piece => coercePart policy schema .item (.string piece)))
  | same {text : String} (hboolean : declaredType? schema ≠ some "boolean")
    (harray : declaredType? schema ≠ some "array") : NodeCoerced policy schema (.string text) (.string text)

theorem nodeCoerced_text (policy : CoercionPolicy) (schema : Json) (text : String) :
    NodeCoerced policy schema (.string text) (coerceValue policy schema (.string text)) := by
  by_cases hinteger : declaredType? schema = some "integer"
  · rw [coerceValue_integer hinteger, coerceScalar]
    cases hresult : coerceInteger policy text with
    | none => exact .same (by simp [hinteger]) (by simp [hinteger])
    | some result =>
      obtain ⟨n, rfl⟩ := exists_number_of_coerceInteger hresult
      exact .number (.inl hinteger) n
  by_cases hnumber : declaredType? schema = some "number"
  · rw [coerceValue_number hnumber, coerceScalar]
    cases hresult : coerceNumber text with
    | none => exact .same (by simp [hnumber]) (by simp [hnumber])
    | some result =>
      obtain ⟨n, rfl⟩ := exists_number_of_coerceNumber hresult
      exact .number (.inr hnumber) n
  by_cases hboolean : declaredType? schema = some "boolean"
  · rw [coerceValue_boolean hboolean, coerceScalar, Option.getD_some]
    rcases coerceFlag_cases policy text with ⟨b, hflag⟩ | ⟨hstrict, hnull⟩
    · exact hflag ▸ .flag hboolean b
    · exact hnull ▸ .null hboolean hstrict
  by_cases harray : declaredType? schema = some "array"
  · obtain ⟨pieces, htext⟩ := exists_isCommaSeparated text
    rw [coerceValue_pieces harray htext]
    exact .pieces harray htext
  · have hsame : coerceValue policy schema (.string text) = .string text := by
      rw [coerceValue_eq_coerceParts]
      unfold coerceParts
      split <;> simp_all
    rw [hsame]
    exact .same hboolean harray

theorem nodeCoerced_coerceValue (policy : CoercionPolicy) (schema node : Json) :
    NodeCoerced policy schema node (coerceValue policy schema node) := by
  cases node with
  | object fields =>
    rw [coerceValue_fields]
    exact .form rfl (.object (by rw [List.map_map]; rfl))
  | array items =>
    rw [coerceValue_items]
    exact .form rfl (.array (List.length_map _))
  | string text => exact nodeCoerced_text policy schema text
  | _ =>
    rw [coerceValue_of_plain rfl rfl rfl]
    exact .form rfl (.plain rfl rfl)

/-- Coercion changes texts that are declared to be something else, and nothing besides. A node that a schema
governs keeps its form unless it is a text, which becomes what the schema declares, if it becomes anything;
all other nodes stay, and so do all parameters where coercion is off. -/
theorem coerceValue_changes (policy : CoercionPolicy) (schema value : Json) :
    (∀ steps node, value.Leads steps node →
      ∃ result, (coerceValue policy schema value).Leads steps result ∧
        ((∃ inner, Governs schema value steps inner node ∧ NodeCoerced policy inner node result) ∨
          (∀ inner, ¬ Governs schema value steps inner node) ∧ result = node)) ∧
      ∀ coercer : Coercer, coercer.policy = .disabled → ∀ parameters,
        coercer.coerce parameters = parameters := by
  refine ⟨fun steps node h => ?_, fun coercer hdisabled parameters => ?_⟩
  · by_cases hgoverned : ∃ inner, Governs schema value steps inner node
    · obtain ⟨inner, hinner⟩ := hgoverned
      exact ⟨_, leads_coerceValue hinner, .inl ⟨inner, hinner, nodeCoerced_coerceValue policy inner node⟩⟩
    · have hnone := not_exists.1 hgoverned
      exact ⟨node, leads_coerceValue_of_ungoverned h hnone, .inr ⟨hnone, rfl⟩⟩
  · rw [Coercer.coerce_eq, hdisabled]
    rfl

/-- A schema with a list of numbers below a property. -/
def idsSchema : Json :=
  .objectOf [("type", .string "object"), ("properties", .objectOf [("ids", .objectOf
    [("type", .string "array"), ("items", .objectOf [("type", .array [.string "null", .string "number"])])])])]

/-- A text for a list, and a text that has no schema. -/
theorem coerceValue_changes_idsSchema :
    (∀ entry ∈ [("ids", "1,,x"), ("q", "1")], ∃ result,
      (coerceValue .strict idsSchema (.objectOf [("ids", .string "1,,x"), ("q", .string "1")])).Leads
          [entry.1] result ∧
        ((∃ inner, Governs idsSchema (.objectOf [("ids", .string "1,,x"), ("q", .string "1")]) [entry.1] inner
            (.string entry.2) ∧ NodeCoerced .strict inner (.string entry.2) result) ∨
          (∀ inner, ¬ Governs idsSchema (.objectOf [("ids", .string "1,,x"), ("q", .string "1")]) [entry.1] inner
            (.string entry.2)) ∧ result = .string entry.2)) ∧
      (Coercer.ofSchemas .disabled [("ids", idsSchema)]).coerce [("ids", .string "1,,x")] =
        [("ids", .string "1,,x")] := by
  have hleads : ∀ entry ∈ [("ids", "1,,x"), ("q", "1")],
      (Json.objectOf [("ids", .string "1,,x"), ("q", .string "1")]).Leads [entry.1] (.string entry.2) := by
    simp only [List.forall_mem_cons]
    exact ⟨.member (.head _) (.here _), .member (.tail _ (.head _)) (.here _), nofun⟩
  have hchanges := coerceValue_changes .strict idsSchema (.objectOf [("ids", .string "1,,x"), ("q", .string "1")])
  exact ⟨fun entry hentry => hchanges.1 _ _ (hleads entry hentry), hchanges.2 _ rfl _⟩

end

end ApiContract
