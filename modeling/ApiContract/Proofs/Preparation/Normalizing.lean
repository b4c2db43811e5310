import ApiContract.Proofs.Preparation.Rewriting
import Mathlib.Logic.Basic

/-! # What normalizing keeps

A schema in the dialect of OpenAPI asks, once it is normalized, what it asked in the dialect. The one
exception are properties with the names of data keywords, whose schemas stay as they are.

* `Dialect.asserts_normalized`: the assertions of one schema.
* `Dialect.fulfils_normalized`: all its keywords.
* `Dialect.passes_normalizeDialect`, `Dialect.findings_normalizeDialect_iff`: schemas, by induction. -/

set_option autoImplicit false

namespace ApiContract

namespace Dialect

/-! ## Assertions -/

section

variable {allowed : String → Prop} {keywords : Fields} {inst : Json}

theorem holds_typeOrNull (name : String) :
    Assertion.Holds "type" (typeOrNull (.string name)) inst ↔
      inst = .null ∨ Assertion.Holds "type" (.string name) inst := by
  have hnull : SchemaType.null.holds inst = true ↔ inst = .null := by
    cases inst <;> simp [SchemaType.holds]
  show (∃ type : SchemaType, type.name ∈ [name, "null"] ∧ type.holds inst = true) ↔
    inst = .null ∨ ∃ type : SchemaType, type.name ∈ [name] ∧ type.holds inst = true
  rw [← hnull]
  constructor
  · rintro ⟨type, hname, hholds⟩
    rcases List.mem_cons.1 hname with hname | hname
    · exact .inr ⟨type, List.mem_singleton.2 hname, hholds⟩
    · have htype : type = .null := by
        cases type <;> first | rfl | exact absurd (List.mem_singleton.1 hname) (by decide)
      exact .inl (htype ▸ hholds)
  · rintro (hholds | ⟨type, hname, hholds⟩)
    · exact ⟨.null, List.mem_cons_of_mem _ (List.mem_singleton.2 rfl), hholds⟩
    · exact ⟨type, List.mem_cons.2 (.inl (List.mem_singleton.1 hname)), hholds⟩

theorem holds_valuesOrNull (values : List Json) :
    Assertion.Holds "enum" (valuesOrNull (.array values)) inst ↔
      inst = .null ∨ Assertion.Holds "enum" (.array values) inst := by
  have hnull : Json.null.sameValue inst = true ↔ inst = .null := by
    cases inst <;> simp [Json.sameValue]
  rw [valuesOrNull]
  split
  · rename_i hamong
    obtain ⟨given, hgiven, hsame⟩ := List.any_eq_true.1 hamong
    have hmem : Json.null ∈ values := by
      cases given with
      | null => exact hgiven
      | _ => cases hsame
    refine (or_iff_right_of_imp fun heq => ?_).symm
    exact ⟨.null, hmem, hnull.2 heq⟩
  · show (∃ v ∈ values ++ [.null], v.sameValue inst = true) ↔
      inst = .null ∨ ∃ v ∈ values, v.sameValue inst = true
    rw [← hnull]
    simp [or_and_right, exists_or, or_comm]

theorem holdsOrNull_iff (h : HasOpenShape allowed keywords) {key : String}
    (hkey : key = "type" ∨ key = "enum") :
    (∀ value, (normalized keywords).get? key = some value → Assertion.Holds key value inst) ↔
      HoldsOrNull keywords key inst := by
  unfold HoldsOrNull
  rw [get?_normalized_orNull h hkey]
  cases hvalue : keywords.get? key with
  | none => simp
  | some value =>
    have hholds : Assertion.Holds key (orNull key value) inst ↔
        inst = .null ∨ Assertion.Holds key value inst := by
      rcases hkey with rfl | rfl
      · obtain ⟨name, rfl⟩ := h.type value hvalue
        exact holds_typeOrNull name
      · obtain ⟨values, rfl⟩ := h.enum value hvalue
        exact holds_valuesOrNull values
    cases flagged keywords "nullable" with
    | true => simp [hholds]
    | false => simp

theorem boundHolds_iff {exclusive inclusive : String}
    (hexclusive : (normalized keywords).get? exclusive =
      if flagged keywords exclusive then keywords.get? inclusive else none)
    (hinclusive : (normalized keywords).get? inclusive =
      if flagged keywords exclusive then none else keywords.get? inclusive) :
    ((∀ limit, (normalized keywords).get? exclusive = some limit →
          Assertion.Holds exclusive limit inst) ∧
        ∀ limit, (normalized keywords).get? inclusive = some limit →
          Assertion.Holds inclusive limit inst) ↔
      BoundHolds keywords exclusive inclusive inst := by
  unfold BoundHolds
  rw [hexclusive, hinclusive]
  cases flagged keywords exclusive with
  | true => simp
  | false => simp

theorem boundHolds_minimum (h : HasOpenShape allowed keywords) :
    ((∀ limit, (normalized keywords).get? "exclusiveMinimum" = some limit →
          Assertion.Holds "exclusiveMinimum" limit inst) ∧
        ∀ limit, (normalized keywords).get? "minimum" = some limit →
          Assertion.Holds "minimum" limit inst) ↔
      BoundHolds keywords "exclusiveMinimum" "minimum" inst := by
  refine boundHolds_iff ?_ ?_
  · rw [get?_normalized h, if_neg (by decide), if_neg (by simp), if_pos rfl]
  · rw [get?_normalized h, if_neg (by decide), if_neg (by simp), if_neg (by decide)]
    simp only [true_and]
    split
    · rfl
    · rw [get?_normalizeNullable (by decide), h.bound (by decide)]
      simp [orNull]

theorem boundHolds_maximum (h : HasOpenShape allowed keywords) :
    ((∀ limit, (normalized keywords).get? "exclusiveMaximum" = some limit →
          Assertion.Holds "exclusiveMaximum" limit inst) ∧
        ∀ limit, (normalized keywords).get? "maximum" = some limit →
          Assertion.Holds "maximum" limit inst) ↔
      BoundHolds keywords "exclusiveMaximum" "maximum" inst := by
  refine boundHolds_iff ?_ ?_
  · rw [get?_normalized h, if_pos rfl]
  · rw [get?_normalized h, if_neg (by decide)]
    simp only [true_and]
    split
    · rfl
    · rw [if_neg (by decide), if_neg (by simp), get?_normalizeNullable (by decide),
        h.bound (by decide)]
      simp [orNull]

/-- The assertions among the keywords, normalized and as they are written. -/
theorem asserts_normalized (h : HasOpenShape allowed keywords) :
    (∀ key value, (normalized keywords).get? key = some value →
        Assertion.Holds key value inst ∧ contentFailures (normalized keywords) key value inst = []) ↔
      HoldsOrNull keywords "type" inst ∧ HoldsOrNull keywords "enum" inst ∧
        BoundHolds keywords "exclusiveMinimum" "minimum" inst ∧
        BoundHolds keywords "exclusiveMaximum" "maximum" inst ∧
        ∀ value, keywords.get? "required" = some value → Assertion.Holds "required" value inst := by
  rw [← holdsOrNull_iff h (.inl rfl), ← holdsOrNull_iff h (.inr rfl), ← boundHolds_minimum h,
    ← boundHolds_maximum h, ← get?_normalized_required h]
  constructor
  · intro hasserts
    have hholds : ∀ key value, (normalized keywords).get? key = some value →
        Assertion.Holds key value inst := fun key value hvalue => (hasserts key value hvalue).1
    exact ⟨hholds _, hholds _, ⟨hholds _, hholds _⟩, ⟨hholds _, hholds _⟩, hholds _⟩
  · rintro ⟨htype, henum, ⟨hexmin, hmin⟩, ⟨hexmax, hmax⟩, hrequired⟩ key value hvalue
    have hknown := known_normalized h hvalue
    have hcontent : key ≠ "contentMediaType" ∧ key ≠ "contentEncoding" := by
      constructor
      all_goals
        rintro rfl
        exact absurd hknown (by decide)
    refine ⟨?_, contentFailures_of_ne value inst hcontent.1 hcontent.2⟩
    by_cases hkey : key ∈ Assertion.keywords
    · have hfew : ∀ key ∈ openKeywords, key ∈ Assertion.keywords → key ∈
          ["type", "enum", "exclusiveMinimum", "minimum", "exclusiveMaximum", "maximum", "required"] := by
        decide
      have hone := hfew key hknown hkey
      simp only [List.mem_cons, List.not_mem_nil, or_false] at hone
      rcases hone with rfl | rfl | rfl | rfl | rfl | rfl | rfl
      · exact htype value hvalue
      · exact henum value hvalue
      · exact hexmin value hvalue
      · exact hmin value hvalue
      · exact hexmax value hvalue
      · exact hmax value hvalue
      · exact hrequired value hvalue
    · exact Assertion.holds_of_not_mem hkey

end

/-! ## Schemas inside -/

section

variable {allowed : String → Prop} {keywords : Fields} {inst : Json} {here : Json → Prop}
  {inside : Json → Json → Prop}

theorem listed_normalizeDialect {items : List Json} :
    listed (normalizeDialect (.array items)) = items.map normalizeDialect := by
  rw [normalizeDialect, normalizeItems_eq_map]
  rfl

theorem isObject_walkField {key : String} {value : Json} (h : value.isObject = true) :
    (walkField normalizeDialect isDataKeyword key value).isObject = true := by
  cases value with
  | object fields =>
    unfold walkField
    split
    · rfl
    · rw [normalizeDialect]
      rfl
  | _ => cases h

theorem normalizeDialect_properties {properties : Fields}
    (h : ∀ key value, properties.get? key = some value → value.isObject = true) :
    normalizeDialect (.object properties) = .object (normalizeFields properties) := by
  rw [normalizeDialect, normalizeKeywords_of_map]
  refine isMap_of_objects fun key value hvalue => ?_
  rw [get?_normalizeFields, Option.map_eq_some_iff] at hvalue
  obtain ⟨given, hgiven, rfl⟩ := hvalue
  exact isObject_walkField (h key given hgiven)

variable (h : HasOpenShape allowed keywords)
  (hobjects : ∀ sub, IsInner keywords sub → sub.isObject = true)
include h hobjects

theorem declaredProperty?_normalized (name : String) :
    declaredProperty? (normalized keywords) name =
      (declaredProperty? keywords name).map (walkField normalizeDialect isDataKeyword name) := by
  unfold declaredProperty?
  rw [get?_normalized_walked h (by decide)]
  cases hvalue : keywords.get? "properties" with
  | none => rfl
  | some value =>
    obtain ⟨properties, rfl⟩ := h.properties value hvalue
    have hproperties : ∀ key value, Fields.get? key properties = some value →
        value.isObject = true :=
      fun key sub hsub => hobjects sub (.property (declaredProperty?_eq_some.2 ⟨_, hvalue, hsub⟩))
    rw [Option.map_some, normalizeDialect_properties hproperties]
    exact get?_normalizeFields properties name

theorem membersPass_normalized (hfalse : ∀ value, ¬ inside (.bool false) value) (fields : Fields) :
    MembersPass inside (normalized keywords) fields ↔
      (∀ name value, (name, value) ∈ fields → ∀ sub, declaredProperty? keywords name = some sub →
        inside (walkField normalizeDialect isDataKeyword name sub) value) ∧
      ∀ name value, (name, value) ∈ fields → declaredProperty? keywords name = none →
        keywords.get? "additionalProperties" ≠ some (.bool false) ∧
          ∀ sub, keywords.get? "additionalProperties" = some sub → sub.isObject = true →
            inside (normalizeDialect sub) value := by
  have hfurther : ∀ value, (∀ sub, (normalized keywords).get? "additionalProperties" = some sub →
      isItemSchema sub = true → inside sub value) ↔
        keywords.get? "additionalProperties" ≠ some (.bool false) ∧
          ∀ sub, keywords.get? "additionalProperties" = some sub → sub.isObject = true →
            inside (normalizeDialect sub) value := by
    intro value
    rw [get?_normalized_walked h (by decide)]
    cases hgiven : keywords.get? "additionalProperties" with
    | none => simp
    | some given =>
      rcases h.further given hgiven with ⟨flag, rfl⟩ | hobject
      · cases flag with
        | true => simp [normalizeDialect, isItemSchema, Json.isObject]
        | false => simp [normalizeDialect, isItemSchema, hfalse]
      · cases given with
        | object further => simp [normalizeDialect, isItemSchema, Json.isObject]
        | _ => cases hobject
  have hplain : ∀ name, propertySchemas (normalized keywords) name =
      ((declaredProperty? keywords name).map
        (walkField normalizeDialect isDataKeyword name)).toList := by
    intro name
    rw [propertySchemas, declaredProperty?_normalized h hobjects, matchingPatterns,
      get?_normalized_of_not_mem h (by decide), List.map_nil, List.append_nil]
  unfold MembersPass
  simp only [hplain, hfurther]
  constructor
  · intro hmembers
    refine ⟨fun name value hmem sub hsub => ?_, fun name value hmem hnone => ?_⟩
    · refine (hmembers name value hmem).1 _ ?_
      rw [hsub]
      exact List.mem_singleton.2 rfl
    · refine (hmembers name value hmem).2 ?_
      rw [hnone]
      rfl
  · rintro ⟨hproperty, hothers⟩ name value hmem
    cases hsub : declaredProperty? keywords name with
    | none =>
      exact ⟨fun sub hnone => absurd hnone List.not_mem_nil, fun _ => hothers name value hmem hsub⟩
    | some sub =>
      exact ⟨by simpa using hproperty name value hmem sub hsub,
        fun hnil => absurd hnil (List.cons_ne_nil _ _)⟩

theorem itemsPass_normalized (items : List Json) :
    ItemsPass inside (normalized keywords) items ↔
      ∀ sub, keywords.get? "items" = some sub → ∀ item ∈ items, inside (normalizeDialect sub) item := by
  unfold ItemsPass itemSchema?
  rw [get?_normalized_walked h (by decide)]
  cases hvalue : keywords.get? "items" with
  | none => simp
  | some value =>
    have hobject := hobjects value (.single (.inl rfl) hvalue)
    cases value with
    | object given =>
      simp only [Option.map_some, normalizeDialect, Option.filter_some, isItemSchema, if_true,
        Option.some.injEq, forall_eq']
      constructor
      · intro hitems item hitem
        obtain ⟨i, hi⟩ := List.mem_iff_getElem?.1 hitem
        exact hitems i item hi
      · exact fun hitems i item hi => hitems item (List.mem_of_getElem? hi)
    | _ => cases hobject

omit hobjects in
theorem forall_listed_normalized {key : String} (hkey : key ∈ schemaListKeywords) (p : List Json → Prop) :
    (∀ value, (normalized keywords).get? key = some value → p (listed value)) ↔
      ∀ value, keywords.get? key = some value → p ((listed value).map normalizeDialect) := by
  rw [get?_normalized_walked h (List.mem_append_left _ hkey)]
  cases hvalue : keywords.get? key with
  | none => simp
  | some value =>
    obtain ⟨items, rfl⟩ := h.lists key hkey value hvalue
    simp only [Option.map_some, Option.some.injEq, forall_eq', listed_normalizeDialect]
    rfl

/-- The keywords of a normalized schema ask what they asked in the dialect, of the schemas inside as
they are normalized. -/
theorem fulfils_normalized (hfalse : ∀ value, ¬ inside (.bool false) value) :
    Fulfils here inside (normalized keywords) inst ↔
      Fulfilled (fun sub => here (normalizeDialect sub))
        (fun sub value => inside (normalizeDialect sub) value)
        (fun name sub value => inside (walkField normalizeDialect isDataKeyword name sub) value)
        keywords inst := by
  have habsent : ∀ {key}, key ∉ openKeywords → ∀ value, (normalized keywords).get? key ≠ some value :=
    fun hkey value hvalue => hkey (known_normalized h hvalue)
  have hall := forall_listed_normalized h (by decide : "allOf" ∈ schemaListKeywords)
    fun subs => ∀ sub ∈ subs, here sub
  have hany := forall_listed_normalized h (by decide : "anyOf" ∈ schemaListKeywords)
    fun subs => ∃ sub ∈ subs, here sub
  have hone := forall_listed_normalized h (by decide : "oneOf" ∈ schemaListKeywords) (ExactlyOne here)
  simp only [List.forall_mem_map] at hall
  simp only [List.mem_map, exists_exists_and_eq_and] at hany
  simp only [exactlyOne_map] at hone
  constructor
  · intro hf
    obtain ⟨htype, henum, hminimum, hmaximum, hrequired⟩ := (asserts_normalized h).1 hf.asserts
    have hmembers := fun fields hinst => (membersPass_normalized h hobjects hfalse fields).1
      (hf.members fields hinst)
    exact
      { type := htype
        enum := henum
        minimum := hminimum
        maximum := hmaximum
        required := hrequired
        all := hall.1 hf.all
        any := hany.1 hf.any
        one := hone.1 hf.one
        not := by
          intro sub hsub
          refine hf.not _ ?_
          rw [get?_normalized_walked h (by decide), hsub]
          rfl
        property := fun fields hinst => (hmembers fields hinst).1
        further := fun fields hinst => (hmembers fields hinst).2
        item := fun items hinst => (itemsPass_normalized h hobjects items).1 (hf.items items hinst) }
  · intro hf
    exact
      { asserts := (asserts_normalized h).2 ⟨hf.type, hf.enum, hf.minimum, hf.maximum, hf.required⟩
        all := hall.2 hf.all
        any := hany.2 hf.any
        one := hone.2 hf.one
        not := by
          intro sub hsub
          rw [get?_normalized_walked h (by decide), Option.map_eq_some_iff] at hsub
          obtain ⟨given, hgiven, rfl⟩ := hsub
          exact hf.not given hgiven
        condition := fun test htest => absurd htest (habsent (by decide) test)
        members := fun fields hinst => (membersPass_normalized h hobjects hfalse fields).2
          ⟨hf.property fields hinst, hf.further fields hinst⟩
        names := fun _ _ sub hsub => absurd hsub (habsent (by decide) sub)
        dependencies := fun _ _ _ hentries => absurd hentries (habsent (by decide) _)
        items := fun items hinst => (itemsPass_normalized h hobjects items).2 (hf.item items hinst)
        contains := fun _ _ sub hsub => absurd hsub (habsent (by decide) sub) }

end

/-! ## All schemas -/

/-- The schemas of properties with the names of data keywords are left as they are. -/
def leftAsWritten (reads : Json → Json → Prop) (name : String) : Option (Json → Json → Prop) :=
  if isDataKeyword name then some reads else none

section

variable {root : Json} {known : List String} {allowed : String → Prop}
  {exceptions : String → Option (Json → Json → Prop)}

theorem IsOpenSchema.isObject {schema : Json} (h : IsOpenSchema allowed schema) :
    schema.isObject = true := by
  cases h
  rfl

/-- A normalized schema passes what the schema admits, with these exceptions. -/
theorem passes_normalizeDialect (hexceptions : ∀ name, allowed name →
      exceptions name = leftAsWritten (Evaluation.Passes root known known) name)
    {schema inst : Json} (hopen : IsOpenSchema allowed schema) (hschema : schema.ordered = true)
    (hinst : inst.ordered = true) :
    Evaluation.Passes root known known (normalizeDialect schema) inst ↔
      Admits exceptions schema inst := by
  induction hopen generalizing inst with
  | @object keywords shape inner ih =>
    have hobjects : ∀ sub, IsInner keywords sub → sub.isObject = true :=
      fun sub hsub => (inner sub hsub).isObject
    have hordered := ordered_normalizeDialect hschema
    have href : ∀ reference, (normalized keywords).get? "$ref" ≠ some (.string reference) := by
      intro reference
      rw [get?_normalized_of_not_mem shape (by decide)]
      nofun
    rw [normalizeDialect_object] at hordered ⊢
    rw [Evaluation.passes_iff_fulfils hordered hinst href,
      fulfils_normalized shape hobjects fun _ => Evaluation.not_passes_false, admits_object hinst]
    refine Fulfilled.congr (fun sub hsub => ?_) (fun sub hsub value hvalue => ?_)
      (fun name sub hsub value hvalue => ?_) hinst
    · exact ih sub hsub (hsub.ordered hschema) hinst
    · exact ih sub hsub (hsub.ordered hschema) hvalue
    · have hinner : IsInner keywords sub := .property hsub
      rw [hexceptions name (shape.names name sub hsub), leftAsWritten, walkField]
      split
      · exact Iff.rfl
      · exact ih sub hinner (hinner.ordered hschema) hvalue

end

/-- A normalized schema is satisfied by what the schema admits in the dialect, but for properties with
the names of data keywords, whose schemas are read as JSON Schema as they are written. Without such
properties the two say the same. -/
theorem findings_normalizeDialect_iff {schema inst : Json} (hopen : IsOpenSchema (fun _ => True) schema)
    (hschema : schema.ordered = true) (hinst : inst.ordered = true) (root : Json) :
    (Evaluation.findings root (normalizeDialect schema) inst = [] ↔
        Admits (leftAsWritten fun sub value => Evaluation.findings root sub value = []) schema inst) ∧
      (IsOpenSchema (fun name => isDataKeyword name = false) schema →
        (Evaluation.findings root (normalizeDialect schema) inst = [] ↔
          Admits (fun _ => none) schema inst)) := by
  refine ⟨passes_normalizeDialect (fun name _ => rfl) hopen hschema hinst, fun hnames => ?_⟩
  refine passes_normalizeDialect (fun name hname => ?_) hnames hschema hinst
  rw [leftAsWritten, hname, if_neg Bool.false_ne_true]

theorem not_passes_nullableText {root : Json} {known : List String} :
    ¬ Evaluation.Passes root known known (.object nullableText) .null := by
  rw [Evaluation.passes_iff_fulfils rfl rfl (by simp [nullableText, Fields.get?_cons])]
  intro h
  obtain ⟨type, hname, hholds⟩ := (h.asserts "type" (.string "string") rfl).1
  cases type with
  | null => exact absurd hname (by decide)
  | _ => cases hholds

/-- A property whose name is no data keyword may be null. -/
theorem nullableProperty_passes :
    IsOpenSchema (fun _ => True) (.object (nullableProperty "a")) ∧
      (Json.object (nullableProperty "a")).ordered = true ∧ (nullProperty "a").ordered = true ∧
      Evaluation.findings (normalizeDialect (.object (nullableProperty "a")))
        (normalizeDialect (.object (nullableProperty "a"))) (nullProperty "a") = [] := by
  have hopen : IsOpenSchema (fun _ => True) (.object (nullableProperty "a")) :=
    isOpenSchema_nullableProperty trivial
  have hnames : IsOpenSchema (fun name => isDataKeyword name = false)
      (.object (nullableProperty "a")) := isOpenSchema_nullableProperty rfl
  have hordered : (Json.object (nullableProperty "a")).ordered = true := by decide
  exact ⟨hopen, hordered, rfl, ((findings_normalizeDialect_iff hopen hordered rfl _).2 hnames).2
    (nullableProperty_admits "a")⟩

/-- The property `default` may be null in the dialect, and may not be so any more once the schema is
normalized. -/
theorem defaultProperty_not_nullable :
    IsOpenSchema (fun _ => True) (.object (nullableProperty "default")) ∧
      (Json.object (nullableProperty "default")).ordered = true ∧
      (nullProperty "default").ordered = true ∧
      Admits (fun _ => none) (.object (nullableProperty "default")) (nullProperty "default") ∧
      Evaluation.findings (normalizeDialect (.object (nullableProperty "default")))
        (normalizeDialect (.object (nullableProperty "default"))) (nullProperty "default") ≠ [] := by
  have hopen : IsOpenSchema (fun _ => True) (.object (nullableProperty "default")) :=
    isOpenSchema_nullableProperty trivial
  have hordered : (Json.object (nullableProperty "default")).ordered = true := by decide
  refine ⟨hopen, hordered, rfl, nullableProperty_admits "default", fun hpasses => ?_⟩
  have hadmits := (passes_normalizeDialect (fun _ _ => rfl) hopen hordered rfl).1 hpasses
  have hproperty := ((admits_object rfl).1 hadmits).property _ rfl "default" .null
    (List.mem_singleton.2 rfl) (.object nullableText) rfl
  exact not_passes_nullableText hproperty

end Dialect

end ApiContract
