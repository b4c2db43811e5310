import ApiContract.Proofs.Preparation.Flattening
import ApiContract.Proofs.Preparation.Merging
import ApiContract.Proofs.Schema.Following
import ApiContract.Proofs.Schema.Plain

/-! # Schemas of separate keywords

Merging puts keywords of different schemas side by side. It can only make the result laxer where a
keyword says the same whatever stands beside it, and where a laxer schema inside makes the whole laxer.

* `Uncomposed`, `Steady`: values that the walk leaves as they are, also behind references.
* `HasSeparateKeywords`, `IsSeparable`: schemas in which keywords stand on their own.
* `Followable`: documents whose references can be followed to their end.
* `Admissible`, `Mergeable`: separable schemas of a document whose references lead to such.
* `Laxer`: a schema that may stand in place of another one. -/

set_option autoImplicit false

namespace ApiContract

open Relation

/-! ## Values without compositions -/

/-- A value in which there is no list under `allOf`, but for what the walk passes over. -/
inductive Uncomposed : Json → Prop where
  | object {fields : Fields} (hall : ∀ fragments, fields.get? "allOf" ≠ some (.array fragments))
    (h : ∀ field ∈ fields, isDataKeyword field.1 = false → Uncomposed field.2) :
    Uncomposed (.object fields)
  | array {items : List Json} (h : ∀ item ∈ items, Uncomposed item) : Uncomposed (.array items)
  | other {value : Json} (hobject : value.isObject = false) (hitems : value.items? = none) :
    Uncomposed value

theorem uncomposed_array {items : List Json} :
    Uncomposed (.array items) ↔ ∀ item ∈ items, Uncomposed item := by
  refine ⟨fun h => ?_, .array⟩
  cases h with
  | array h => exact h
  | other _ hitems => cases hitems

/-- All references that a schema leads to have targets without compositions. -/
def Steady (document schema : Json) : Prop :=
  ∀ reference, Needs document schema reference → ∀ target, targetOf document reference = .ok target →
    Uncomposed target

/-! ## Separate keywords -/

/-- Keywords that change what another keyword of the same schema says. OpenAPI has none of them. -/
def pairedKeywords : List String :=
  ["then", "else", "additionalItems", "patternProperties", "contentEncoding"]

/-- Keywords whose values must not become laxer, or are no schemas at all. -/
def exactKeywords : List String := Assertion.keywords ++ ["contentMediaType", "not", "oneOf"]

/-- The schemas directly in a schema that must not become laxer. -/
inductive StrictPart (keywords : Fields) : Json → Prop where
  | not {sub : Json} (h : keywords.get? "not" = some sub) : StrictPart keywords sub
  | one {value sub : Json} (h : keywords.get? "oneOf" = some value) (hsub : sub ∈ listed value) :
    StrictPart keywords sub

/-- The keywords of a schema stand on their own, and there is no composition, nor a way to one, where it
would matter how much laxer it gets. -/
structure HasSeparateKeywords (document : Json) (keywords : Fields) : Prop where
  unpaired : ∀ key ∈ pairedKeywords, keywords.get? key = none
  reference : ∀ value, keywords.get? "$ref" = some value → ∃ text, value = .string text
  exact : ∀ key ∈ exactKeywords, isDataKeyword key = false → ∀ value, keywords.get? key = some value →
    Uncomposed value
  entries : ∀ entries : Fields, keywords.get? "dependencies" = some (.object entries) →
    (∀ fragments, entries.get? "allOf" ≠ some (.array fragments)) ∧
      ∀ name names, entries.get? name = some (.array names) → Uncomposed (.array names)
  strict : ∀ sub, StrictPart keywords sub → Steady document sub

/-- The schemas directly in a schema that may become laxer. -/
inductive LaxPart (keywords : Fields) : Json → Prop where
  | single {key : String} {sub : Json}
    (hkey : key ∈ ["additionalProperties", "propertyNames", "contains"])
    (h : keywords.get? key = some sub) : LaxPart keywords sub
  | item {sub : Json} (h : keywords.get? "items" = some sub) (hsub : sub.items? = none) :
    LaxPart keywords sub
  | listed {key : String} {value sub : Json} (hkey : key ∈ ["allOf", "anyOf", "items"])
    (h : keywords.get? key = some value) (hsub : sub ∈ listed value) : LaxPart keywords sub
  | property {name : String} {sub : Json} (h : declaredProperty? keywords name = some sub) :
    LaxPart keywords sub
  | dependency {name : String} {entries : Fields} {sub : Json}
    (h : keywords.get? "dependencies" = some (.object entries)) (hentry : entries.get? name = some sub)
    (hsub : sub.items? = none) : LaxPart keywords sub

/-- Keywords stand on their own in a schema and in all schemas in it that may become laxer. -/
inductive IsSeparable (document : Json) : Json → Prop where
  | bool (b : Bool) : IsSeparable document (.bool b)
  | object {keywords : Fields} (separate : HasSeparateKeywords document keywords)
    (parts : ∀ sub, LaxPart keywords sub → IsSeparable document sub) :
    IsSeparable document (.object keywords)

section

variable {document sub : Json} {keywords given : Fields}

theorem isSeparable_object : IsSeparable document (.object keywords) ↔
    HasSeparateKeywords document keywords ∧
      ∀ sub, LaxPart keywords sub → IsSeparable document sub := by
  constructor
  · intro h
    cases h with
    | object separate parts => exact ⟨separate, parts⟩
  · exact fun h => .object h.1 h.2

/-- Assertions, references and compositions stand on their own. -/
theorem isSeparable_of_keys (h : ∀ field ∈ keywords,
      field.1 ∈ Assertion.keywords ∧ Uncomposed field.2 ∨
      field.1 = "$ref" ∧ (∃ text, field.2 = .string text) ∨
      field.1 = "allOf" ∧ ∀ fragment ∈ listed field.2, IsSeparable document fragment) :
    IsSeparable document (.object keywords) := by
  have habsent : ∀ {key}, key ∉ "$ref" :: "allOf" :: Assertion.keywords → ∀ value,
      keywords.get? key ≠ some value := by
    intro key hkey value hvalue
    refine hkey ?_
    rcases h _ (Fields.mem_of_get? hvalue) with ⟨hassertion, -⟩ | ⟨rfl, -⟩ | ⟨rfl, -⟩
    · exact List.mem_cons_of_mem _ (List.mem_cons_of_mem _ hassertion)
    · exact List.mem_cons_self ..
    · exact List.mem_cons_of_mem _ (List.mem_cons_self ..)
  refine .object ⟨fun key hkey => ?_, fun value hvalue => ?_, fun key hkey _ value hvalue => ?_,
    fun entries hentries => absurd hentries (habsent (by decide) _), fun sub hsub => ?_⟩
    fun sub hsub => ?_
  · have hall : ∀ key ∈ pairedKeywords, key ∉ "$ref" :: "allOf" :: Assertion.keywords := by decide
    exact Option.eq_none_iff_forall_ne_some.2 (habsent (hall key hkey))
  · have hassertion : "$ref" ∉ Assertion.keywords := by decide
    rcases h _ (Fields.mem_of_get? hvalue) with ⟨hmem, -⟩ | ⟨-, htext⟩ | ⟨hname, -⟩
    · exact absurd hmem hassertion
    · exact htext
    · exact absurd hname (by simp)
  · rcases h _ (Fields.mem_of_get? hvalue) with ⟨-, huncomposed⟩ | ⟨-, text, htext⟩ | ⟨rfl, -⟩
    · exact huncomposed
    · cases htext
      exact .other rfl rfl
    · exact absurd hkey (by decide)
  · cases hsub with
    | not hvalue => exact absurd hvalue (habsent (by decide) _)
    | one hvalue _ => exact absurd hvalue (habsent (by decide) _)
  · cases hsub with
    | single hkey hvalue =>
      have hall : ∀ key ∈ ["additionalProperties", "propertyNames", "contains"],
          key ∉ "$ref" :: "allOf" :: Assertion.keywords := by decide
      exact absurd hvalue (habsent (hall _ hkey) _)
    | item hvalue _ => exact absurd hvalue (habsent (by decide) _)
    | listed hkey hvalue hmem =>
      have hassertion : ∀ key ∈ ["allOf", "anyOf", "items"], key ∉ Assertion.keywords := by decide
      rcases h _ (Fields.mem_of_get? hvalue) with ⟨hname, -⟩ | ⟨rfl, -⟩ | ⟨-, hfragments⟩
      · exact absurd hname (hassertion _ hkey)
      · exact absurd hkey (by decide)
      · exact hfragments sub hmem
    | property hdeclared =>
      obtain ⟨properties, hproperties, -⟩ := declaredProperty?_eq_some.1 hdeclared
      exact absurd hproperties (habsent (by decide) _)
    | dependency hvalue _ _ => exact absurd hvalue (habsent (by decide) _)

theorem LaxPart.beneath (h : LaxPart keywords sub) : Beneath keywords sub := by
  cases h with
  | single _ h => exact .value h
  | item h _ => exact .value h
  | listed _ h hsub => exact .listed h hsub
  | property h =>
    obtain ⟨properties, hproperties, hsub⟩ := declaredProperty?_eq_some.1 h
    exact .entry hproperties (Fields.mem_of_get? hsub)
  | dependency h hentry _ => exact .entry h (Fields.mem_of_get? hentry)

theorem StrictPart.beneath (h : StrictPart keywords sub) : Beneath keywords sub := by
  cases h with
  | not h => exact .value h
  | one h hsub => exact .listed h hsub

theorem HasSeparateKeywords.reference?_eq_none (h : HasSeparateKeywords document keywords)
    (href : (Json.object keywords).reference? = none) : keywords.get? "$ref" = none := by
  cases hvalue : keywords.get? "$ref" with
  | none => rfl
  | some value =>
    obtain ⟨text, rfl⟩ := h.reference value hvalue
    rw [Json.reference?, Json.getString?, Json.get?, hvalue] at href
    cases href

/-- An item has the schema of its place, or that of all items. -/
theorem HasSeparateKeywords.itemSchema?_eq_some (h : HasSeparateKeywords document keywords) {place : Nat} :
    itemSchema? keywords place = some sub ↔
      (∃ tuple, keywords.get? "items" = some (.array tuple) ∧ tuple[place]? = some sub) ∨
        keywords.get? "items" = some sub ∧ isItemSchema sub = true := by
  rw [itemSchema?, h.unpaired "additionalItems" (by decide), Option.filter_none]
  cases hitems : keywords.get? "items" with
  | none => simp
  | some value =>
    cases value with
    | array tuple =>
      show tuple[place]?.or none = some sub ↔ _
      rw [Option.or_none]
      constructor
      · exact fun hsub => .inl ⟨tuple, rfl, hsub⟩
      · rintro (⟨given, hgiven, hsub⟩ | ⟨hsub, hitem⟩)
        · cases hgiven
          exact hsub
        · cases hsub
          cases hitem
    | _ =>
      rw [Option.filter_eq_some_iff]
      simp

theorem HasSeparateKeywords.contentFailures_eq (h : HasSeparateKeywords document keywords)
    (hgiven : HasSeparateKeywords document given) {key : String} {value inst : Json}
    (hvalue : keywords.get? key = some value) :
    contentFailures given key value inst = contentFailures keywords key value inst := by
  have hkey : key ≠ "contentEncoding" := by
    rintro rfl
    rw [h.unpaired "contentEncoding" (by decide)] at hvalue
    cases hvalue
  unfold contentFailures
  simp only [hkey, h.unpaired "contentEncoding" (by decide), hgiven.unpaired "contentEncoding" (by decide),
    decide_false, Bool.false_and]

end

/-! ## References -/

/-- A document whose references are plain pointers into it, none of which leads back to itself. -/
structure Followable (document : Json) : Prop where
  ordered : document.ordered = true
  unrepeated : Unrepeated document
  plain : ∀ reference ∈ document.allReferences, IsPlainReference reference

/-- A reference of a document, where it and all that it leads to have separable targets. -/
def Admissible (document : Json) (reference : String) : Prop :=
  reference ∈ document.allReferences ∧
    ∀ second, ReflTransGen (LeadsOn document) reference second →
      ∀ target, targetOf document second = .ok target → IsSeparable document target

/-- A separable schema in a document, whose references lead to such. -/
structure Mergeable (document schema : Json) : Prop where
  ordered : schema.ordered = true
  references : RefersOnly (Admissible document) schema
  separable : IsSeparable document schema

section

variable {document schema found : Json} {keywords : Fields} {reference : String}

theorem Followable.target_iff (h : Followable document) (hmem : reference ∈ document.allReferences) :
    targetOf document reference = .ok found ↔ document.resolve? reference = some found :=
  targetOf_eq_ok_iff (h.plain reference hmem)

/-- A reference to a schema without references. -/
theorem admissible_of_last (hmem : reference ∈ document.allReferences)
    (htarget : targetOf document reference = .ok found) (hlast : found.allReferences = [])
    (hseparable : IsSeparable document found) :
    Admissible document reference := by
  refine ⟨hmem, fun second hway given hgiven => ?_⟩
  obtain rfl | ⟨next, ⟨other, hother, hnext⟩, -⟩ := ReflTransGen.cases_head hway
  · cases htarget.symm.trans hgiven
    exact hseparable
  · cases htarget.symm.trans hother
    rw [hlast] at hnext
    cases hnext

theorem Admissible.refersOnly (h : Admissible document reference)
    (htarget : targetOf document reference = .ok found) : RefersOnly (Admissible document) found := by
  intro next hnext
  refine ⟨allReferences_subset_of_targetOf htarget hnext, fun second hway => ?_⟩
  exact h.2 second (.head ⟨found, htarget, hnext⟩ hway)

theorem RefersOnly.followed (hdocument : Followable document)
    (h : RefersOnly (Admissible document) schema) (href : schema.reference? = some reference)
    (htarget : document.resolve? reference = some found) : RefersOnly (Admissible document) found := by
  have hreference := h.reference href
  exact hreference.refersOnly ((hdocument.target_iff hreference.1).2 htarget)

theorem Mergeable.followed (hdocument : Followable document) (h : Mergeable document schema)
    (href : schema.reference? = some reference) (htarget : targetOf document reference = .ok found) :
    Mergeable document found := by
  have hreference := h.references.reference href
  exact ⟨ordered_of_targetOf hdocument.ordered htarget, hreference.refersOnly htarget,
    hreference.2 reference .refl found htarget⟩

theorem Mergeable.part {sub : Json} (h : Mergeable document (.object keywords))
    (hsub : LaxPart keywords sub) : Mergeable document sub :=
  ⟨hsub.beneath.ordered h.ordered,
    fun next hnext => h.references next (hsub.beneath.allReferences_subset hnext),
    (isSeparable_object.1 h.separable).2 sub hsub⟩

theorem Mergeable.separate (h : Mergeable document (.object keywords)) :
    HasSeparateKeywords document keywords :=
  (isSeparable_object.1 h.separable).1

theorem Mergeable.known (h : Mergeable document schema) :
    schema.allReferences ⊆ document.allReferences :=
  fun next hnext => (h.references next hnext).1

end

/-! ## Laxer schemas -/

/-- A mergeable schema that accepts what another one accepts. -/
structure Laxer (document schema result : Json) : Prop where
  mergeable : Mergeable document result
  reference : result.reference? = schema.reference?
  accepts : ∀ inst, inst.ordered = true → Evaluation.Accepts document schema inst →
    Evaluation.Accepts document result inst

section

variable {document first second third inst : Json} {keywords given : Fields}

theorem Laxer.refl (h : Mergeable document first) : Laxer document first first :=
  ⟨h, rfl, fun _ _ => id⟩

theorem Laxer.trans (h : Laxer document first second) (hnext : Laxer document second third) :
    Laxer document first third :=
  ⟨hnext.mergeable, hnext.reference.trans h.reference,
    fun inst hinst haccepts => hnext.accepts inst hinst (h.accepts inst hinst haccepts)⟩

/-- Keywords beside a reference do not count. -/
theorem accepts_of_same_reference (hdocument : Followable document) (hinst : inst.ordered = true)
    {reference : String}
    (hone : Mergeable document (.object keywords)) (htwo : Mergeable document (.object given))
    (href : (Json.object keywords).reference? = some reference)
    (hsame : (Json.object given).reference? = (Json.object keywords).reference?) :
    Evaluation.Accepts document (.object keywords) inst ↔
      Evaluation.Accepts document (.object given) inst := by
  rw [Evaluation.accepts_reference hdocument.ordered hdocument.unrepeated hinst hone.known
      (get?_of_reference? href),
    Evaluation.accepts_reference hdocument.ordered hdocument.unrepeated hinst htwo.known
      (get?_of_reference? (hsame.trans href))]

/-- Without a reference a separable schema is accepted if its keywords are fulfilled. -/
theorem accepts_iff_fulfils (h : Mergeable document (.object keywords)) (hinst : inst.ordered = true)
    (href : (Json.object keywords).reference? = none) :
    Evaluation.Accepts document (.object keywords) inst ↔
      Fulfils (fun sub => Evaluation.Accepts document sub inst) (Evaluation.Accepts document)
        keywords inst := by
  refine Evaluation.accepts_keywords h.ordered hinst fun reference hvalue => ?_
  rw [h.separate.reference?_eq_none href] at hvalue
  cases hvalue

/-- An assertion on its own. -/
theorem accepts_of_assertion {value : Json} {key : String}
    (hkey : key ∈ Assertion.keywords) (hordered : (Json.object [(key, value)]).ordered = true)
    (hinst : inst.ordered = true) (h : Assertion.Holds key value inst) :
    Evaluation.Accepts document (.object [(key, value)]) inst := by
  have hone : ∀ {name held}, Fields.get? name [(key, value)] = some held → name = key ∧ held = value :=
    fun hheld => Prod.mk.inj (List.mem_singleton.1 (Fields.mem_of_get? hheld))
  have habsent : ∀ {name}, name ∉ Assertion.keywords → ∀ held,
      Fields.get? name [(key, value)] ≠ some held :=
    fun hname held hheld => hname ((hone hheld).1 ▸ hkey)
  have hplain : IsPlain [(key, value)] := by
    have hall : ∀ name ∈ Assertion.keywords, name ∉ furtherKeywords := by decide
    exact isPlain_of_keys (List.forall_mem_singleton.2 (hall key hkey))
  refine (Evaluation.accepts_keywords hordered hinst fun _ => habsent (by decide) _).2
    ((fulfils_of_plain hplain).2 ⟨fun name held hheld => ?_,
      fun held hheld => absurd hheld (habsent (by decide) held), fun fields _ name member _ sub hsub => ?_,
      fun items _ i item _ sub hsub => ?_⟩)
  · obtain ⟨rfl, rfl⟩ := hone hheld
    exact h
  · rcases Option.or_eq_some_iff.1 hsub with hdeclared | ⟨-, hfurther⟩
    · obtain ⟨properties, hproperties, -⟩ := declaredProperty?_eq_some.1 hdeclared
      exact absurd hproperties (habsent (by decide) _)
    · exact absurd (Option.filter_eq_some_iff.1 hfurther).1 (habsent (by decide) _)
  · rw [itemSchema?, Option.eq_none_iff_forall_ne_some.2 (habsent (by decide))] at hsub
    cases hsub

end

end ApiContract
