import ApiContract.Preparation.Discriminator
import ApiContract.Proofs.Schema.Passing

/-! # Simple kinds of schemas

What `Fulfils` comes to where only some of the keywords are present.

* `IsPlain`, `fulfils_of_plain`: assertions, `allOf`, and one schema for each property and each item.
* `fulfils_of_inPlace`: only schemas for the instance itself.
* `conjuncts`, `Fulfils.of_agree`: `allOf` apart from everything else. -/

set_option autoImplicit false

namespace ApiContract

/-! ## Content -/

theorem contentFailures_congr {a b : Fields} (key : String) (value inst : Json)
    (hmedia : a.get? "contentMediaType" = b.get? "contentMediaType")
    (hencoding : a.get? "contentEncoding" = b.get? "contentEncoding") :
    contentFailures a key value inst = contentFailures b key value inst := by
  unfold contentFailures
  rw [hencoding, Fields.hasKey, Fields.hasKey, hmedia]

theorem contentFailures_of_ne {keywords : Fields} {key : String} (value inst : Json)
    (hmedia : key ≠ "contentMediaType") (hencoding : key ≠ "contentEncoding") :
    contentFailures keywords key value inst = [] := by
  unfold contentFailures
  cases inst <;> simp [hmedia, hencoding]

/-! ## Plain schemas -/

/-- The keywords that are no assertions, beside `allOf` and those that give each property and each item
one schema. -/
def furtherKeywords : List String :=
  ["anyOf", "oneOf", "not", "if", "patternProperties", "propertyNames", "dependencies",
    "additionalItems", "contains", "contentMediaType", "contentEncoding"]

/-- None of the further keywords is present. -/
def IsPlain (keywords : Fields) : Prop := ∀ key ∈ furtherKeywords, keywords.get? key = none

instance (keywords : Fields) : Decidable (IsPlain keywords) :=
  inferInstanceAs (Decidable (∀ key ∈ furtherKeywords, _))

theorem isPlain_of_keys {keywords : Fields} (h : ∀ field ∈ keywords, field.1 ∉ furtherKeywords) :
    IsPlain keywords := by
  intro key hkey
  cases hvalue : keywords.get? key with
  | none => rfl
  | some value => exact absurd hkey (h (key, value) (Fields.mem_of_get? hvalue))

/-- The one schema of a property. -/
def propertySchemaOf? (keywords : Fields) (name : String) : Option Json :=
  (declaredProperty? keywords name).or
    ((keywords.get? "additionalProperties").filter isItemSchema)

section

variable {here : Json → Prop} {inside : Json → Json → Prop} {keywords : Fields} {inst : Json}

/-- Without patterns each property has at most one schema. -/
theorem membersPass_of_noPatterns {fields : Fields} (h : keywords.get? "patternProperties" = none) :
    MembersPass inside keywords fields ↔ ∀ name value, (name, value) ∈ fields →
      ∀ sub, propertySchemaOf? keywords name = some sub → inside sub value := by
  have hpatterns : ∀ name, matchingPatterns keywords name = [] := by
    intro name
    rw [matchingPatterns, h]
  have hschemas : ∀ name, propertySchemas keywords name = (declaredProperty? keywords name).toList := by
    intro name
    rw [propertySchemas, hpatterns, List.map_nil, List.append_nil]
  unfold MembersPass propertySchemaOf?
  simp only [hschemas]
  refine forall_congr' fun name => forall_congr' fun value => imp_congr_right fun _ => ?_
  cases declaredProperty? keywords name with
  | none => simp [Option.filter_eq_some_iff]
  | some sub => simp

/-- What plain keywords ask. -/
theorem fulfils_of_plain (h : IsPlain keywords) :
    Fulfils here inside keywords inst ↔
      (∀ key value, keywords.get? key = some value → Assertion.Holds key value inst) ∧
      (∀ value, keywords.get? "allOf" = some value → ∀ sub ∈ listed value, here sub) ∧
      (∀ fields, inst = .object fields → ∀ name value, (name, value) ∈ fields →
        ∀ sub, propertySchemaOf? keywords name = some sub → inside sub value) ∧
      ∀ items, inst = .array items → ItemsPass inside keywords items := by
  have habsent : ∀ key ∈ furtherKeywords, ∀ value, keywords.get? key ≠ some value := by
    intro key hkey value hvalue
    rw [h key hkey] at hvalue
    cases hvalue
  have hpatterns := h "patternProperties" (by decide)
  have hcontent : ∀ key value, keywords.get? key = some value →
      contentFailures keywords key value inst = [] := by
    intro key value hvalue
    refine contentFailures_of_ne value inst ?_ ?_
    all_goals
      rintro rfl
      exact habsent _ (by decide) value hvalue
  constructor
  · intro hf
    exact ⟨fun key value hvalue => (hf.asserts key value hvalue).1, hf.all,
      fun fields hinst => (membersPass_of_noPatterns hpatterns).1 (hf.members fields hinst), hf.items⟩
  · rintro ⟨hasserts, hall, hmembers, hitems⟩
    exact
      { asserts := fun key value hvalue => ⟨hasserts key value hvalue, hcontent key value hvalue⟩
        all := hall
        any := fun value hvalue => absurd hvalue (habsent _ (by decide) value)
        one := fun value hvalue => absurd hvalue (habsent _ (by decide) value)
        not := fun sub hsub => absurd hsub (habsent _ (by decide) sub)
        condition := fun test htest => absurd htest (habsent _ (by decide) test)
        members := fun fields hinst => (membersPass_of_noPatterns hpatterns).2 (hmembers fields hinst)
        names := fun _ _ sub hsub => absurd hsub (habsent _ (by decide) sub)
        dependencies := fun _ _ entries hentries => absurd hentries (habsent _ (by decide) _)
        items := hitems
        contains := fun _ _ sub hsub => absurd hsub (habsent _ (by decide) sub) }

/-- The keywords that apply schemas to the instance itself, on its own. -/
def inPlaceKeywords : List String := ["allOf", "anyOf", "oneOf", "not", "if", "then", "else"]

/-- Keys beside the keywords of a schema that ask for nothing. -/
def silentKeys : List String := ["components", "discriminator"]

/-- What keywords that apply schemas to the instance itself ask, whatever silent keys are beside them. -/
theorem fulfils_of_inPlace_or_silent
    (h : ∀ field ∈ keywords, field.1 ∈ inPlaceKeywords ++ silentKeys) :
    Fulfils here inside keywords inst ↔
      (∀ value, keywords.get? "allOf" = some value → ∀ sub ∈ listed value, here sub) ∧
      (∀ value, keywords.get? "anyOf" = some value → ∃ sub ∈ listed value, here sub) ∧
      (∀ value, keywords.get? "oneOf" = some value → ExactlyOne here (listed value)) ∧
      (∀ sub, keywords.get? "not" = some sub → ¬ here sub) ∧
      ∀ test, keywords.get? "if" = some test →
        (∀ sub, keywords.get? "then" = some sub → here test → here sub) ∧
          (∀ sub, keywords.get? "else" = some sub → ¬ here test → here sub) := by
  have hmem : ∀ {key value}, keywords.get? key = some value → key ∈ inPlaceKeywords ++ silentKeys :=
    fun hvalue => h _ (Fields.mem_of_get? hvalue)
  have habsent : ∀ {key}, key ∉ inPlaceKeywords ++ silentKeys → ∀ value, keywords.get? key ≠ some value :=
    fun hkey value hvalue => hkey (hmem hvalue)
  have hassertion : ∀ key ∈ inPlaceKeywords ++ silentKeys, key ∉ Assertion.keywords ∧
      key ≠ "contentMediaType" ∧ key ≠ "contentEncoding" := by decide
  constructor
  · exact fun hf => ⟨hf.all, hf.any, hf.one, hf.not, hf.condition⟩
  · rintro ⟨hall, hany, hone, hnot, hcondition⟩
    exact
      { asserts := by
          intro key value hvalue
          obtain ⟨hkey, hmedia, hencoding⟩ := hassertion key (hmem hvalue)
          exact ⟨Assertion.holds_of_not_mem hkey, contentFailures_of_ne value inst hmedia hencoding⟩
        all := hall
        any := hany
        one := hone
        not := hnot
        condition := hcondition
        members := by
          intro fields _ name value _
          have hproperties : keywords.get? "properties" = none :=
            Option.eq_none_iff_forall_ne_some.2 (habsent (by decide))
          have hpatterns : keywords.get? "patternProperties" = none :=
            Option.eq_none_iff_forall_ne_some.2 (habsent (by decide))
          rw [propertySchemas_of_absent hproperties hpatterns]
          exact ⟨by simp, fun _ sub hsub => absurd hsub (habsent (by decide) sub)⟩
        names := fun _ _ sub hsub => absurd hsub (habsent (by decide) sub)
        dependencies := fun _ _ _ hentries => absurd hentries (habsent (by decide) _)
        items := by
          intro items _ i item _ sub hsub
          have hitems : keywords.get? "items" = none :=
            Option.eq_none_iff_forall_ne_some.2 (habsent (by decide))
          rw [itemSchema?, hitems] at hsub
          cases hsub
        contains := fun _ _ sub hsub => absurd hsub (habsent (by decide) sub) }

/-- What keywords that apply schemas to the instance itself ask. -/
theorem fulfils_of_inPlace (h : ∀ field ∈ keywords, field.1 ∈ inPlaceKeywords) :
    Fulfils here inside keywords inst ↔
      (∀ value, keywords.get? "allOf" = some value → ∀ sub ∈ listed value, here sub) ∧
      (∀ value, keywords.get? "anyOf" = some value → ∃ sub ∈ listed value, here sub) ∧
      (∀ value, keywords.get? "oneOf" = some value → ExactlyOne here (listed value)) ∧
      (∀ sub, keywords.get? "not" = some sub → ¬ here sub) ∧
      ∀ test, keywords.get? "if" = some test →
        (∀ sub, keywords.get? "then" = some sub → here test → here sub) ∧
          (∀ sub, keywords.get? "else" = some sub → ¬ here test → here sub) :=
  fulfils_of_inPlace_or_silent fun field hfield => List.mem_append_left _ (h field hfield)

end

/-! ## Conjuncts -/

/-- The schemas that `allOf` lists. -/
def conjuncts (keywords : Fields) : List Json := listed ((keywords.get? "allOf").getD .null)

theorem mem_conjuncts {keywords : Fields} {sub : Json} : sub ∈ conjuncts keywords ↔
    ∃ value, keywords.get? "allOf" = some value ∧ sub ∈ listed value := by
  unfold conjuncts
  cases keywords.get? "allOf" with
  | none => simp [listed, Json.items?]
  | some value => simp

/-- Keywords that agree but for some ask the same, if what those ask is known. -/
theorem Fulfils.of_agree_apart {here : Json → Prop} {inside : Json → Json → Prop} {a b : Fields}
    {inst : Json}
    (h : ∀ key, key ∉ ["additionalProperties", "allOf", casesKeyword] → a.get? key = b.get? key)
    (hall : ∀ sub ∈ conjuncts b, here sub)
    (hmembers : ∀ fields, inst = .object fields → MembersPass inside b fields)
    (hf : Fulfils here inside a inst) : Fulfils here inside b inst where
  asserts := by
    intro key value hvalue
    by_cases hkey : key ∈ ["additionalProperties", "allOf", casesKeyword]
    · have hsilent : ∀ key ∈ ["additionalProperties", "allOf", casesKeyword],
          key ∉ Assertion.keywords ∧ key ≠ "contentMediaType" ∧ key ≠ "contentEncoding" := by decide
      obtain ⟨hassertion, hmedia, hencoding⟩ := hsilent key hkey
      exact ⟨Assertion.holds_of_not_mem hassertion, contentFailures_of_ne value inst hmedia hencoding⟩
    · rw [← contentFailures_congr key value inst (h _ (by decide)) (h _ (by decide))]
      exact hf.asserts key value ((h key hkey).trans hvalue)
  all := fun value hvalue sub hsub => hall sub (mem_conjuncts.2 ⟨value, hvalue, hsub⟩)
  any := fun value hvalue => hf.any value ((h _ (by decide)).trans hvalue)
  one := fun value hvalue => hf.one value ((h _ (by decide)).trans hvalue)
  not := fun value hvalue => hf.not value ((h _ (by decide)).trans hvalue)
  condition := by
    intro test htest
    rw [← h "then" (by decide), ← h "else" (by decide)]
    exact hf.condition test ((h _ (by decide)).trans htest)
  members := hmembers
  names := fun fields hinst sub hsub => hf.names fields hinst sub ((h _ (by decide)).trans hsub)
  dependencies := fun fields hinst entries hentries =>
    hf.dependencies fields hinst entries ((h _ (by decide)).trans hentries)
  items := by
    intro items hinst
    have hitems := hf.items items hinst
    unfold ItemsPass itemSchema? at hitems ⊢
    rwa [h "items" (by decide), h "additionalItems" (by decide)] at hitems
  contains := fun items hinst sub hsub => hf.contains items hinst sub ((h _ (by decide)).trans hsub)

/-- Keywords that agree but for `allOf` and the table of cases ask the same but for `allOf`. -/
theorem Fulfils.of_agree {here : Json → Prop} {inside : Json → Json → Prop} {a b : Fields}
    {inst : Json} (h : ∀ key, key ≠ "allOf" → key ≠ casesKeyword → a.get? key = b.get? key)
    (hall : ∀ sub ∈ conjuncts b, here sub) (hf : Fulfils here inside a inst) :
    Fulfils here inside b inst := by
  refine hf.of_agree_apart (fun key hkey => ?_) hall fun fields hinst => ?_
  · simp only [List.mem_cons, not_or] at hkey
    exact h key hkey.2.1 hkey.2.2.1
  · have hmembers := hf.members fields hinst
    unfold MembersPass propertySchemas declaredProperty? matchingPatterns at hmembers ⊢
    rwa [h "properties" (by decide) (by decide), h "patternProperties" (by decide) (by decide),
      h "additionalProperties" (by decide) (by decide)] at hmembers

end ApiContract
