import ApiContract.Coercion
import ApiContract.Reference
import ApiContract.Proofs.Json.Frame
import ApiContract.Proofs.Json.Parts
import ApiContract.Proofs.Query.Settled
import Mathlib.Logic.Relation

/-! # Coercion and the references of a schema

A query is coerced by schemas whose references are taken out beforehand. One may as well keep a schema as it
is and follow a reference in the document whenever coercion comes to one.

* `CoercesTo`: coercion that follows references as it meets them.
* `Expandable`: schemas in which it meets references that lead somewhere, and none that leads back.
* `TakenAsIs`: where it comes to a schema that inlining leaves as it is, the property of a data keyword.
* `transparent_iff`: both ways agree exactly if such schemas coerce as if their references were followed.
* `defaultProperty_not_transparent`: a property named like a data keyword, with a reference. -/

set_option autoImplicit false

namespace ApiContract

open Relation

/-! ## One level of coercion -/

/-- Where a schema has schemas for the parts of a value. -/
inductive Site where
  | item
  | property (key : String)
deriving DecidableEq

/-- Inlining leaves the values of data keywords as they are, also where these words name properties. -/
def Site.isKept : Site → Bool
  | item => false
  | property key => isDataKeyword key

/-- The schema for the parts at a site, as far as coercion by the declared type comes to them. -/
def partSchema? (schema : Json) : Site → Option Json
  | .item => if declaredType? schema = some "array" then schema.get? "items" else none
  | .property key =>
    if declaredType? schema = some "object" then
      ((schema.get? "properties").bind Json.fields?).bind (Fields.get? key)
    else none

/-- The parts of a value at a site. -/
def partsAt : Site → Json → List Json
  | .item, value => (splitItems value).items?.getD []
  | .property key, value => ((value.fields?.getD []).filter fun field => field.1 = key).map Prod.snd

/-- Coercion to a declared type, with what is done to the parts given. -/
def coerceParts (policy : CoercionPolicy) (type : Option String) (inside : Site → Option (Json → Json))
    (value : Json) : Json :=
  match type with
  | some "integer" => coerceScalar (coerceInteger policy) value
  | some "number" => coerceScalar coerceNumber value
  | some "boolean" => coerceScalar (fun text => some (coerceFlag policy text)) value
  | some "array" =>
    match inside .item, splitItems value with
    | some coerce, .array items => .array (items.map coerce)
    | _, split => split
  | some "object" =>
    match value with
    | .object fields => .object (fields.map fun field =>
        (field.1, ((inside (.property field.1)).getD id) field.2))
    | other => other
  | _ => value

section

variable {policy : CoercionPolicy} {schema inner value : Json} {site : Site}

theorem sizeOf_partSchema?_lt (h : partSchema? schema site = some inner) :
    sizeOf inner < sizeOf schema := by
  cases site with
  | item =>
    rw [partSchema?] at h
    split at h
    · exact Json.sizeOf_get?_lt h
    · cases h
  | property key =>
    rw [partSchema?] at h
    split at h
    · obtain ⟨properties, hproperties, hinner⟩ := Option.bind_eq_some_iff.1 h
      obtain ⟨part, hpart, hfields⟩ := Option.bind_eq_some_iff.1 hproperties
      have h1 := Json.sizeOf_get?_lt hpart
      have h2 := Json.sizeOf_fields_lt hfields
      have h3 := Fields.sizeOf_get?_lt hinner
      omega
    · cases h

theorem allReferences_subset_of_partSchema? (h : partSchema? schema site = some inner) :
    inner.allReferences ⊆ schema.allReferences := by
  cases site with
  | item =>
    rw [partSchema?] at h
    split at h
    · exact Json.allReferences_subset_of_get? h
    · cases h
  | property key =>
    rw [partSchema?] at h
    split at h
    · obtain ⟨properties, hproperties, hinner⟩ := Option.bind_eq_some_iff.1 h
      obtain ⟨part, hpart, hfields⟩ := Option.bind_eq_some_iff.1 hproperties
      cases part with
      | object fields =>
        cases hfields
        exact List.Subset.trans (Json.allReferences_subset_of_mem (Fields.mem_of_get? hinner))
          (Json.allReferences_subset_of_get? hpart)
      | _ => cases hfields
    · cases h

/-- Coercion is one level of it, with coercion inside. -/
theorem coerceValue_eq_coerceParts (policy : CoercionPolicy) (schema value : Json) :
    coerceValue policy schema value = coerceParts policy (declaredType? schema)
      (fun site => (partSchema? schema site).map (coerceValue policy)) value := by
  by_cases harray : declaredType? schema = some "array"
  · rw [coerceValue_array harray, harray, coerceParts, partSchema?, if_pos harray]
    cases schema.get? "items" with
    | none => rfl
    | some inner => cases splitItems value <;> rfl
  by_cases hobject : declaredType? schema = some "object"
  · have hproperty : ∀ key, partSchema? schema (.property key) =
        ((schema.get? "properties").bind Json.fields?).bind (Fields.get? key) := fun key => by
      rw [partSchema?, if_pos hobject]
    rw [coerceValue_object hobject, hobject]
    simp only [coerceParts, hproperty]
    cases value with
    | object fields =>
      cases (schema.get? "properties").bind Json.fields? with
      | none => simp
      | some properties =>
        refine congrArg Json.object (List.map_congr_left fun field _ => ?_)
        rw [coerceField, Option.bind_some]
        cases properties.get? field.1 <;> rfl
    | _ => cases (schema.get? "properties").bind Json.fields? <;> rfl
  · by_cases hinteger : declaredType? schema = some "integer"
    · rw [coerceValue_integer hinteger, hinteger, coerceParts]
    by_cases hnumber : declaredType? schema = some "number"
    · rw [coerceValue_number hnumber, hnumber, coerceParts]
    by_cases hboolean : declaredType? schema = some "boolean"
    · rw [coerceValue_boolean hboolean, hboolean, coerceParts]
    have hother : ∀ type ∈ declaredType? schema,
        type ∉ ["integer", "number", "boolean", "array", "object"] := by
      intro type htype
      rw [Option.mem_def] at htype
      simp only [htype, Option.some.injEq] at hinteger hnumber hboolean harray hobject
      simp [hinteger, hnumber, hboolean, harray, hobject]
    rw [coerceValue_other hother, coerceParts]
    · exact hinteger
    · exact hnumber
    · exact hboolean
    · exact harray
    · exact hobject

/-- Only what is done to the parts of the value counts. -/
theorem coerceParts_congr {first second : Site → Json → Json → Json}
    (h : ∀ site inner part, partSchema? schema site = some inner → part ∈ partsAt site value →
      first site inner part = second site inner part) :
    coerceParts policy (declaredType? schema) (fun site => (partSchema? schema site).map (first site))
        value =
      coerceParts policy (declaredType? schema) (fun site => (partSchema? schema site).map (second site))
        value := by
  unfold coerceParts
  split
  · rfl
  · rfl
  · rfl
  · cases hinner : partSchema? schema .item with
    | none => simp only [hinner, Option.map_none]
    | some inner =>
      simp only [hinner, Option.map_some]
      cases hsplit : splitItems value with
      | array items =>
        refine congrArg Json.array (List.map_congr_left fun part hpart => ?_)
        exact h .item inner part hinner (by rw [partsAt, hsplit]; exact hpart)
      | _ => rfl
  · cases value with
    | object fields =>
      refine congrArg Json.object (List.map_congr_left fun field hfield => ?_)
      cases hinner : partSchema? schema (.property field.1) with
      | none => simp only [hinner, Option.map_none]
      | some inner =>
        simp only [hinner, Option.map_some, Option.getD_some]
        refine congrArg (Prod.mk field.1) (h _ inner field.2 hinner ?_)
        exact List.mem_map.2 ⟨field, List.mem_filter.2 ⟨hfield, by simp⟩, rfl⟩
    | _ => rfl
  · rfl

/-- A value with one part at a site. -/
def wrapAt : Site → Json → Json
  | .item, part => .array [part]
  | .property key, part => .object [(key, part)]

theorem mem_partsAt_wrapAt (site : Site) (part : Json) : part ∈ partsAt site (wrapAt site part) := by
  cases site with
  | item => exact List.mem_singleton_self part
  | property key => simp [partsAt, wrapAt, Json.fields?]

theorem wrapAt_injective {first second : Json} (h : wrapAt site first = wrapAt site second) :
    first = second := by
  cases site <;> simpa [wrapAt] using h

theorem coerceParts_wrapAt (h : partSchema? schema site = some inner)
    (inside : Site → Json → Json → Json) (part : Json) :
    coerceParts policy (declaredType? schema) (fun site => (partSchema? schema site).map (inside site))
      (wrapAt site part) = wrapAt site (inside site inner part) := by
  cases site with
  | item =>
    have htype : declaredType? schema = some "array" := by
      rw [partSchema?] at h
      split at h
      · assumption
      · cases h
    simp only [htype, coerceParts, wrapAt, splitItems, h, Option.map_some, List.map_cons, List.map_nil]
  | property key =>
    have htype : declaredType? schema = some "object" := by
      rw [partSchema?] at h
      split at h
      · assumption
      · cases h
    simp only [htype, coerceParts, wrapAt, List.map_cons, List.map_nil, h, Option.map_some, Option.getD_some]

end

/-! ## Following references -/

/-- Coercion of a value by a schema of a document, which follows a reference whenever it comes to one. -/
inductive CoercesTo (document : Json) (policy : CoercionPolicy) : Json → Json → Json → Prop where
  | reference {schema target value result : Json} {reference : String}
    (href : schema.reference? = some reference) (htarget : document.resolve? reference = some target)
    (h : CoercesTo document policy target value result) : CoercesTo document policy schema value result
  | level {schema value : Json} (inside : Site → Json → Json → Json) (href : schema.reference? = none)
    (h : ∀ site inner part, partSchema? schema site = some inner → part ∈ partsAt site value →
      CoercesTo document policy inner part (inside site inner part)) :
    CoercesTo document policy schema value (coerceParts policy (declaredType? schema)
      (fun site => (partSchema? schema site).map (inside site)) value)

/-- Coercion comes from a schema to another one, at sites of a kind. -/
inductive CoercionStep (document : Json) (sites : Site → Prop) (schema inner : Json) : Prop where
  | reference {reference : String} (href : schema.reference? = some reference)
    (htarget : document.resolve? reference = some inner)
  | part {site : Site} (href : schema.reference? = none) (hsite : sites site)
    (hinner : partSchema? schema site = some inner)

/-- The schemas that coercion may come to. -/
def ComesTo (document : Json) : Json → Json → Prop :=
  ReflTransGen (CoercionStep document fun _ => True)

/-- A schema that coercion may come to and that inlining leaves as it is. -/
def TakenAsIs (document schema inner : Json) : Prop :=
  ∃ outer site, ReflTransGen (CoercionStep document fun site => site.isKept = false) schema outer ∧
    outer.reference? = none ∧ site.isKept = true ∧ partSchema? outer site = some inner

/-- The references that coercion meets lead somewhere and not back to themselves, and the keywords that
it reads besides schemas are no references. -/
structure Expandable (document schema : Json) : Prop where
  resolved : ∀ met, ComesTo document schema met → ∀ reference, met.reference? = some reference →
    ∃ target, document.resolve? reference = some target
  acyclic : ∀ met, ComesTo document schema met → ∀ reference target, met.reference? = some reference →
    document.resolve? reference = some target →
      ∀ again, ComesTo document target again → again.reference? ≠ some reference
  type : ∀ met, ComesTo document schema met → ∀ type, met.get? "type" = some type →
    type.allReferences = []
  properties : ∀ met, ComesTo document schema met → ∀ properties, met.get? "properties" = some properties →
    properties.reference? = none

/-- Coercion by the inlined schema is coercion that follows references. -/
def Transparent (document : Json) (policy : CoercionPolicy) (schema : Json) : Prop :=
  ∀ value result, CoercesTo document policy schema value result ↔
    result = coerceValue policy (inlineSchema document schema) value

section

variable {document schema inner target value : Json} {policy : CoercionPolicy} {site : Site}
  {reference : String} {pool : List String}

theorem CoercesTo.deterministic {first second : Json} (h : CoercesTo document policy schema value first)
    (h' : CoercesTo document policy schema value second) : first = second := by
  induction h generalizing second with
  | reference href htarget _ ih =>
    cases h' with
    | reference href' htarget' h' =>
      cases href.symm.trans href'
      cases htarget.symm.trans htarget'
      exact ih h'
    | level _ href' => cases href.symm.trans href'
  | level inside href _ ih =>
    cases h' with
    | reference href' => cases href.symm.trans href'
    | level other _ h' =>
      exact coerceParts_congr fun site inner part hinner hpart =>
        ih site inner part hinner hpart (h' site inner part hinner hpart)

theorem CoercesTo.of_reference {result : Json} (href : schema.reference? = some reference)
    (htarget : document.resolve? reference = some target)
    (h : CoercesTo document policy schema value result) :
    CoercesTo document policy target value result := by
  cases h with
  | reference href' htarget' h =>
    cases href.symm.trans href'
    cases htarget.symm.trans htarget'
    exact h
  | level _ href' => cases href.symm.trans href'

/-- What happens to a part happens to it in a value around it. -/
theorem CoercesTo.of_wrapAt {part result : Json} (href : schema.reference? = none)
    (hinner : partSchema? schema site = some inner)
    (h : CoercesTo document policy schema (wrapAt site part) (wrapAt site result)) :
    CoercesTo document policy inner part result := by
  generalize hwhole : wrapAt site result = whole at h
  cases h with
  | reference href' => cases href.symm.trans href'
  | level inside _ h =>
    rw [coerceParts_wrapAt hinner] at hwhole
    rw [wrapAt_injective hwhole]
    exact h site inner part hinner (mem_partsAt_wrapAt site part)

theorem CoercionStep.mono {sites others : Site → Prop} (hsites : ∀ site, sites site → others site)
    (h : CoercionStep document sites schema inner) : CoercionStep document others schema inner := by
  cases h with
  | reference href htarget => exact .reference href htarget
  | part href hsite hinner => exact .part href (hsites _ hsite) hinner

theorem Expandable.step (h : Expandable document schema)
    (hstep : CoercionStep document (fun _ => True) schema inner) : Expandable document inner where
  resolved met hmet := h.resolved met (.head hstep hmet)
  acyclic met hmet := h.acyclic met (.head hstep hmet)
  type met hmet := h.type met (.head hstep hmet)
  properties met hmet := h.properties met (.head hstep hmet)

/-- Below a schema that is met without references nothing is left to follow. -/
theorem coercesTo_coerceValue {schema : Json}
    (h : ∀ met, ComesTo document schema met → met.reference? = none) (value : Json) :
    CoercesTo document policy schema value (coerceValue policy schema value) := by
  rw [coerceValue_eq_coerceParts]
  have href := h schema .refl
  refine .level (fun _ inner part => coerceValue policy inner part) href fun site inner part hinner _ => ?_
  have hsmaller := sizeOf_partSchema?_lt hinner
  exact coercesTo_coerceValue (fun met hmet => h met (.head (.part href trivial hinner) hmet)) part
termination_by sizeOf schema

/-! ## Inlined schemas -/

theorem inlineItems_eq_map (items : List Json) :
    inlineItems document pool items = items.map (inlineWith document pool) := by
  induction items with
  | nil => rw [inlineItems, List.map_nil]
  | cons item rest ih => rw [inlineItems, ih, List.map_cons]

theorem inlineFields_eq_map (fields : Fields) : inlineFields document pool fields =
    fields.map fun field =>
      (field.1, if isDataKeyword field.1 then field.2 else inlineWith document pool field.2) := by
  induction fields with
  | nil => rw [inlineFields, List.map_nil]
  | cons field rest ih => rw [inlineFields, ih, List.map_cons]

theorem inlineWith_of_reference (href : schema.reference? = some reference) (hpool : reference ∈ pool)
    (htarget : document.resolve? reference = some target) :
    inlineWith document pool schema = inlineWith document (withoutReference reference pool) target := by
  cases schema with
  | object fields =>
    rw [inlineWith, get?_of_reference? href]
    simp only [if_pos hpool, htarget]
  | _ => cases href

theorem inlineWith_object {fields : Fields} (href : (Json.object fields).reference? = none) :
    inlineWith document pool (.object fields) = .object (inlineFields document pool fields) := by
  rw [inlineWith]
  split
  · rename_i reference hreference
    rw [Json.reference?, Json.getString?, Json.get?, hreference] at href
    cases href
  · rfl

theorem inlineWith_of_inline (h : schema.allReferences = []) : inlineWith document pool schema = schema := by
  induction schema using Json.partsInduction with
  | object fields ih =>
    have href : (Json.object fields).reference? = none := by
      refine Option.eq_none_iff_forall_ne_some.2 fun reference hreference => ?_
      have hmem := Json.reference?_mem_allReferences hreference
      rw [h] at hmem
      cases hmem
    rw [inlineWith_object href, inlineFields_eq_map]
    refine congrArg Json.object ((List.map_congr_left fun field hfield => ?_).trans (List.map_id _))
    have hsubset : field.2.allReferences ⊆ (Json.object fields).allReferences :=
      Json.allReferences_subset_of_mem hfield
    have hpart : field.2.allReferences = [] := List.subset_nil.1 (h ▸ hsubset)
    rw [ih field hfield hpart, ite_self]
    rfl
  | array items ih =>
    rw [inlineWith, inlineItems_eq_map]
    refine congrArg Json.array ((List.map_congr_left fun item hitem => ?_).trans (List.map_id _))
    exact ih item hitem (List.subset_nil.1 (h ▸ Json.allReferences_subset_of_item hitem))
  | plain value hobject hitems =>
    cases value with
    | object fields => exact absurd rfl (hobject fields)
    | array items => exact absurd rfl (hitems items)
    | _ => rw [inlineWith] <;> simp

theorem get?_inlineWith (href : schema.reference? = none) (key : String) :
    (inlineWith document pool schema).get? key = (schema.get? key).map fun part =>
      if isDataKeyword key then part else inlineWith document pool part := by
  cases schema with
  | object fields =>
    rw [inlineWith_object href, inlineFields_eq_map]
    exact Fields.get?_map fun key part => if isDataKeyword key then part else inlineWith document pool part
  | array items => rw [inlineWith]; rfl
  | _ => rw [inlineWith] <;> simp [Json.get?]

/-- What inlining makes of the schema at a site. -/
def inlineAt (document : Json) (pool : List String) (site : Site) (inner : Json) : Json :=
  if site.isKept then inner else inlineWith document pool inner

theorem declaredType?_inlineWith (href : schema.reference? = none)
    (htype : ∀ type, schema.get? "type" = some type → type.allReferences = []) :
    declaredType? (inlineWith document pool schema) = declaredType? schema := by
  have hsame : (inlineWith document pool schema).get? "type" = schema.get? "type" := by
    rw [get?_inlineWith href]
    cases hget : schema.get? "type" with
    | none => rfl
    | some type => exact congrArg some (inlineWith_of_inline (htype type hget))
  rw [declaredType?, hsame, declaredType?]

theorem fields?_inlineWith {properties : Json} (href : properties.reference? = none) :
    (inlineWith document pool properties).fields? =
      properties.fields?.map (inlineFields document pool) := by
  cases properties with
  | object fields =>
    rw [inlineWith_object href]
    rfl
  | array items => rw [inlineWith]; rfl
  | _ => rw [inlineWith] <;> simp [Json.fields?]

theorem partSchema?_inlineWith (href : schema.reference? = none)
    (htype : ∀ type, schema.get? "type" = some type → type.allReferences = [])
    (hproperties : ∀ properties, schema.get? "properties" = some properties →
      properties.reference? = none) (site : Site) :
    partSchema? (inlineWith document pool schema) site =
      (partSchema? schema site).map (inlineAt document pool site) := by
  cases site with
  | item =>
    rw [partSchema?, partSchema?, declaredType?_inlineWith href htype, get?_inlineWith href]
    split
    · rfl
    · rfl
  | property key =>
    rw [partSchema?, partSchema?, declaredType?_inlineWith href htype, get?_inlineWith href]
    split
    · cases hget : schema.get? "properties" with
      | none => rfl
      | some properties =>
        have hdata : isDataKeyword "properties" = false := by decide
        simp only [Option.map_some, Option.bind_some, hdata, Bool.false_eq_true, if_false]
        rw [fields?_inlineWith (hproperties properties hget)]
        cases properties.fields? with
        | none => rfl
        | some fields =>
          rw [Option.map_some, Option.bind_some, Option.bind_some, inlineFields_eq_map]
          exact Fields.get?_map fun key part => inlineAt document pool (.property key) part
    · rfl

/-! ## Transparency -/

/-- A pool with all references that coercion may meet. -/
def PoolCovers (document schema : Json) (pool : List String) : Prop :=
  ∀ met, ComesTo document schema met → ∀ reference, met.reference? = some reference → reference ∈ pool

theorem covers_inlineSchema (document schema : Json) :
    PoolCovers document schema (document.references ++ schema.references).eraseDups := by
  have hwithin : ∀ met, ComesTo document schema met → ∀ reference ∈ met.allReferences,
      reference ∈ document.allReferences ∨ reference ∈ schema.allReferences := by
    intro met hmet
    induction hmet with
    | refl => exact fun reference hmem => .inr hmem
    | tail _ hstep ih =>
      intro reference hmem
      cases hstep with
      | reference _ htarget => exact .inl (Json.allReferences_subset_of_resolve? htarget hmem)
      | part _ _ hinner => exact ih reference (allReferences_subset_of_partSchema? hinner hmem)
  intro met hmet reference href
  rw [List.mem_eraseDups, List.mem_append, Json.mem_references, Json.mem_references]
  exact hwithin met hmet reference (Json.reference?_mem_allReferences href)

theorem PoolCovers.part (h : PoolCovers document schema pool) (href : schema.reference? = none)
    (hinner : partSchema? schema site = some inner) : PoolCovers document inner pool :=
  fun met hmet => h met (.head (.part href trivial hinner) hmet)

theorem PoolCovers.follow (h : PoolCovers document schema pool) (hschema : Expandable document schema)
    (href : schema.reference? = some reference) (htarget : document.resolve? reference = some target) :
    PoolCovers document target (withoutReference reference pool) := by
  intro met hmet found hfound
  have hne : found ≠ reference := by
    rintro rfl
    exact hschema.acyclic schema .refl found target href htarget met hmet hfound
  exact List.mem_filter.2 ⟨h met (.head (.reference href htarget) hmet) found hfound, by simpa using hne⟩

/-- One level of coercion by the inlined schema. -/
theorem coerceValue_inlineWith (hschema : Expandable document schema) (href : schema.reference? = none)
    (value : Json) : coerceValue policy (inlineWith document pool schema) value =
      coerceParts policy (declaredType? schema) (fun site => (partSchema? schema site).map fun inner part =>
        coerceValue policy (inlineAt document pool site inner) part) value := by
  have htype := hschema.type schema .refl
  rw [coerceValue_eq_coerceParts, declaredType?_inlineWith href htype]
  congr 1
  funext site
  rw [partSchema?_inlineWith href htype (hschema.properties schema .refl), Option.map_map]
  rfl

/-- Coercion that follows references does what the inlined schema does, if it does so where inlining
leaves schemas as they are. -/
theorem coercesTo_inlineWith {schema : Json} {pool : List String} (hschema : Expandable document schema)
    (hpool : PoolCovers document schema pool) (hasIs : ∀ inner, TakenAsIs document schema inner →
      ∀ value, CoercesTo document policy inner value (coerceValue policy inner value)) (value : Json) :
    CoercesTo document policy schema value (coerceValue policy (inlineWith document pool schema) value) := by
  cases href : schema.reference? with
  | some reference =>
    obtain ⟨target, htarget⟩ := hschema.resolved schema .refl reference href
    have hmem : reference ∈ pool := hpool schema .refl reference href
    have hsmaller := length_withoutReference_lt hmem
    rw [inlineWith_of_reference href hmem htarget]
    refine .reference href htarget (coercesTo_inlineWith (hschema.step (.reference href htarget))
      (hpool.follow hschema href htarget) (fun inner hinner => ?_) value)
    obtain ⟨outer, site, hway, hrest⟩ := hinner
    exact hasIs inner ⟨outer, site, .head (.reference href htarget) hway, hrest⟩
  | none =>
    rw [coerceValue_inlineWith hschema href]
    refine .level (fun site inner part => coerceValue policy (inlineAt document pool site inner) part) href
      fun site inner part hinner _ => ?_
    cases hsite : site.isKept with
    | true =>
      rw [inlineAt, if_pos hsite]
      exact hasIs inner ⟨schema, site, .refl, href, hsite, hinner⟩ part
    | false =>
      rw [inlineAt, if_neg (by rw [hsite]; exact Bool.false_ne_true)]
      have hsmaller := sizeOf_partSchema?_lt hinner
      refine coercesTo_inlineWith (hschema.step (.part href trivial hinner)) (hpool.part href hinner)
        (fun sub hsub => ?_) part
      obtain ⟨outer, other, hway, hrest⟩ := hsub
      exact hasIs sub ⟨outer, other, .head (.part href hsite hinner) hway, hrest⟩
termination_by (pool.length, sizeOf schema)
decreasing_by
  · exact Prod.Lex.right _ hsmaller
  · exact Prod.Lex.left _ _ hsmaller

/-- Where the inlined schema does what following does, so it does at every schema on the way that is
inlined, and a schema that is left as it is coerces as if its references were followed. -/
theorem coercesTo_of_takenAsIs (hschema : Expandable document schema) (hpool : PoolCovers document schema pool)
    (h : ∀ value, CoercesTo document policy schema value
      (coerceValue policy (inlineWith document pool schema) value))
    (hinner : TakenAsIs document schema inner) (value : Json) :
    CoercesTo document policy inner value (coerceValue policy inner value) := by
  obtain ⟨outer, site, hway, href, hsite, hinner⟩ := hinner
  -- what is known of a part is known in a value around it
  have hpart : ∀ {schema inner : Json} {pool : List String} {site : Site}, Expandable document schema →
      (∀ value, CoercesTo document policy schema value
        (coerceValue policy (inlineWith document pool schema) value)) →
      schema.reference? = none → partSchema? schema site = some inner → ∀ part,
        CoercesTo document policy inner part
          (coerceValue policy (inlineAt document pool site inner) part) := by
    intro schema inner pool site hschema h href hinner part
    have hwrapped := h (wrapAt site part)
    rw [coerceValue_inlineWith hschema href, coerceParts_wrapAt hinner fun site inner part =>
      coerceValue policy (inlineAt document pool site inner) part] at hwrapped
    exact hwrapped.of_wrapAt href hinner
  induction hway using ReflTransGen.head_induction_on generalizing pool with
  | refl =>
    have hinside := hpart hschema h href hinner value
    rwa [inlineAt, if_pos hsite] at hinside
  | head hstep _ ih =>
    have hnext := hschema.step (hstep.mono fun _ _ => trivial)
    cases hstep with
    | reference href htarget =>
      refine ih hnext (hpool.follow hschema href htarget) fun value => ?_
      have hvalue := h value
      rw [inlineWith_of_reference href (hpool _ .refl _ href) htarget] at hvalue
      exact hvalue.of_reference href htarget
    | part href hkept hinner =>
      refine ih hnext (hpool.part href hinner) fun part => ?_
      have hinside := hpart hschema h href hinner part
      rwa [inlineAt, if_neg (by rw [hkept]; exact Bool.false_ne_true)] at hinside

theorem transparent_iff_coercesTo : Transparent document policy schema ↔
    ∀ value, CoercesTo document policy schema value
      (coerceValue policy (inlineSchema document schema) value) := by
  constructor
  · intro h value
    exact (h value _).2 rfl
  · intro h value result
    constructor
    · intro hresult
      exact hresult.deterministic (h value)
    · rintro rfl
      exact h value

/-- Inlining is transparent to coercion exactly if it is so to leave the schemas of properties that are
named like data keywords as they are; and it is if coercion meets no reference there. -/
theorem transparent_iff (hschema : Expandable document schema) :
    ((∀ inner met, TakenAsIs document schema inner → ComesTo document inner met → met.reference? = none) →
      Transparent document policy schema) ∧
    (Transparent document policy schema ↔ ∀ inner, TakenAsIs document schema inner →
      ∀ value, CoercesTo document policy inner value (coerceValue policy inner value)) := by
  have hpool := covers_inlineSchema document schema
  have hexact : Transparent document policy schema ↔ ∀ inner, TakenAsIs document schema inner →
      ∀ value, CoercesTo document policy inner value (coerceValue policy inner value) := by
    rw [transparent_iff_coercesTo]
    exact ⟨fun h inner hinner => coercesTo_of_takenAsIs hschema hpool h hinner,
      fun h => coercesTo_inlineWith hschema hpool h⟩
  refine ⟨fun h => hexact.2 fun inner hinner => ?_, hexact⟩
  exact coercesTo_coerceValue fun met hmet => h inner met hinner hmet

end

/-! ## An object with a flag -/

def flagSchema : Json := .object [("type", .string "boolean")]

def flagReference : Json := .object [("$ref", .string "#/components/schemas/Flag")]

def flagDocument : Json :=
  .object [("components", .object [("schemas", .object [("Flag", flagSchema)])])]

/-- An object with one property, which is a flag by reference. -/
def flagObject (key : String) : Json :=
  .object [("properties", .object [(key, flagReference)]), ("type", .string "object")]

section

variable {key : String} {sites : Site → Prop} {inner met : Json}

theorem resolve?_flagReference :
    flagDocument.resolve? "#/components/schemas/Flag" = some flagSchema := rfl

theorem partSchema?_flagObject {site : Site} (h : partSchema? (flagObject key) site = some inner) :
    site = .property key ∧ inner = flagReference := by
  cases site with
  | item => cases h
  | property name =>
    have hget : Fields.get? name [(key, flagReference)] = some inner := h
    rw [Fields.get?_cons] at hget
    split at hget
    · rename_i hkey
      cases hget
      exact ⟨congrArg Site.property hkey.symm, rfl⟩
    · cases hget

theorem coercionStep_flagObject (h : CoercionStep flagDocument sites (flagObject key) inner) :
    sites (.property key) ∧ inner = flagReference := by
  cases h with
  | reference href => cases href
  | part _ hsite hinner =>
    obtain ⟨rfl, rfl⟩ := partSchema?_flagObject hinner
    exact ⟨hsite, rfl⟩

theorem coercionStep_flagReference (h : CoercionStep flagDocument sites flagReference inner) :
    inner = flagSchema := by
  cases h with
  | reference href htarget =>
    cases href
    exact Option.some.inj (htarget.symm.trans resolve?_flagReference)
  | part href => cases href

theorem not_coercionStep_flagSchema : ¬ CoercionStep flagDocument sites flagSchema inner := by
  rintro (href | ⟨-, -, hinner⟩)
  · cases href
  · rename_i site
    cases site <;> cases hinner

theorem comesTo_flagSchema (h : ComesTo flagDocument flagSchema met) : met = flagSchema := by
  rcases h.cases_head with rfl | ⟨_, hstep, -⟩
  · rfl
  · exact absurd hstep not_coercionStep_flagSchema

theorem comesTo_flagReference (h : ComesTo flagDocument flagReference met) :
    met = flagReference ∨ met = flagSchema := by
  rcases h.cases_head with rfl | ⟨_, hstep, hrest⟩
  · exact .inl rfl
  · cases coercionStep_flagReference hstep
    exact .inr (comesTo_flagSchema hrest)

theorem comesTo_flagObject (h : ComesTo flagDocument (flagObject key) met) :
    met = flagObject key ∨ met = flagReference ∨ met = flagSchema := by
  rcases h.cases_head with rfl | ⟨_, hstep, hrest⟩
  · exact .inl rfl
  · cases (coercionStep_flagObject hstep).2
    exact .inr (comesTo_flagReference hrest)

theorem expandable_flagObject (key : String) : Expandable flagDocument (flagObject key) where
  resolved met hmet reference href := by
    rcases comesTo_flagObject hmet with rfl | rfl | rfl
    · cases href
    · cases href
      exact ⟨flagSchema, resolve?_flagReference⟩
    · cases href
  acyclic met hmet reference target href htarget again hagain hback := by
    rcases comesTo_flagObject hmet with rfl | rfl | rfl
    · cases href
    · cases href
      cases htarget.symm.trans resolve?_flagReference
      cases comesTo_flagSchema hagain
      cases hback
    · cases href
  type met hmet type htype := by
    rcases comesTo_flagObject hmet with rfl | rfl | rfl <;> cases htype <;> rfl
  properties met hmet properties hproperties := by
    rcases comesTo_flagObject hmet with rfl | rfl | rfl
    · cases hproperties
      refine Option.eq_none_iff_forall_ne_some.2 fun reference href => ?_
      have hget := get?_of_reference? href
      rw [Fields.get?_cons] at hget
      split at hget <;> cases hget
    · cases hproperties
    · cases hproperties

end

/-- With another name than that of a data keyword the flag is found. -/
theorem verboseProperty_transparent :
    Expandable flagDocument (flagObject "verbose") ∧
      Transparent flagDocument .strict (flagObject "verbose") := by
  refine ⟨expandable_flagObject _, (transparent_iff (expandable_flagObject "verbose")).1 ?_⟩
  rintro inner met ⟨outer, site, hway, -, hkept, hinner⟩ -
  have hmet : ComesTo flagDocument (flagObject "verbose") outer :=
    hway.lift id fun _ _ hstep => hstep.mono fun _ _ => trivial
  rcases comesTo_flagObject hmet with rfl | rfl | rfl
  · obtain ⟨rfl, -⟩ := partSchema?_flagObject hinner
    cases hkept
  · cases site <;> cases hinner
  · cases site <;> cases hinner

/-- Behind a word that is also a keyword for data the flag stays a text. -/
theorem defaultProperty_not_transparent :
    Expandable flagDocument (flagObject "default") ∧ CoercionPolicy.strict.isEnabled = true ∧
      CoercesTo flagDocument .strict (flagObject "default") (.object [("default", .string "true")])
        (.object [("default", .bool true)]) ∧
      coerceValue .strict (inlineSchema flagDocument (flagObject "default"))
        (.object [("default", .string "true")]) = .object [("default", .string "true")] := by
  refine ⟨expandable_flagObject "default", rfl, ?_, ?_⟩
  · have hflag : ∀ part, CoercesTo flagDocument .strict flagReference part
        (coerceValue .strict flagSchema part) := fun part =>
      .reference rfl resolve?_flagReference (coercesTo_coerceValue
        (fun met hmet => by rw [comesTo_flagSchema hmet]; rfl) part)
    have hwhole : CoercesTo flagDocument .strict (flagObject "default")
        (.object [("default", .string "true")]) _ :=
      .level (fun _ _ part => coerceValue .strict flagSchema part) rfl fun site inner part hinner _ => by
        obtain ⟨-, rfl⟩ := partSchema?_flagObject hinner
        exact hflag part
    have htrue : coerceValue .strict flagSchema (.string "true") = .bool true := by
      rw [coerceValue_boolean rfl]
      rfl
    have hpart : partSchema? (flagObject "default") (.property "default") = some flagReference := rfl
    have hresult : coerceParts .strict (declaredType? (flagObject "default")) _
        (.object [("default", .string "true")]) = _ :=
      coerceParts_wrapAt hpart (fun _ _ part => coerceValue .strict flagSchema part) (.string "true")
    simp only [wrapAt, htrue] at hresult
    rwa [hresult] at hwhole
  · have hinlined : inlineSchema flagDocument (flagObject "default") = flagObject "default" := by
      have hkept : inlineWith flagDocument
          (flagDocument.references ++ (flagObject "default").references).eraseDups
          (.object [("default", flagReference)]) = .object [("default", flagReference)] := by
        rw [inlineWith_object rfl, inlineFields_eq_map]
        rfl
      have htype : ∀ pool, inlineWith flagDocument pool (.string "object") = .string "object" :=
        fun pool => inlineWith_of_inline rfl
      rw [flagObject] at hkept ⊢
      rw [inlineSchema, inlineWith_object rfl, inlineFields_eq_map]
      simp only [List.map_cons, List.map_nil, hkept, htype, ite_self]
    have hleft : coerceValue .strict flagReference (.string "true") = .string "true" :=
      coerceValue_other fun type htype => by cases htype
    rw [hinlined, coerceValue_object rfl]
    exact congrArg (fun part => Json.object [("default", part)]) hleft

end ApiContract
