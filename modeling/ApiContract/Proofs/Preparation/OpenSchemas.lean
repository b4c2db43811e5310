import ApiContract.Preparation.Dialect
import ApiContract.Schema.Foreign
import ApiContract.Proofs.Schema.Plain

/-! # Schemas as OpenAPI writes them

What a schema asks in the dialect of OpenAPI 3.0, for schemas of a few keywords. The reading is given
schema by schema and does not look at what becomes of a schema later.

* `Dialect.IsOpenSchema`: the schemas, with a condition on the names of their properties.
* `Dialect.Fulfilled`: what the keywords of one schema ask.
* `Dialect.Admits`: the reading of a schema.
* `Dialect.nullableProperty_admits`: a property that may be null. -/

set_option autoImplicit false

namespace ApiContract

namespace Dialect

/-! ## Schemas -/

/-- The keywords that say by a flag how other keywords are meant. -/
def flagKeywords : List String := ["nullable", "exclusiveMinimum", "exclusiveMaximum"]

def boundKeywords : List String := ["minimum", "maximum"]

def openKeywords : List String :=
  flagKeywords ++ boundKeywords ++ schemaListKeywords ++
    ["type", "enum", "required", "properties", "additionalProperties", "items", "not"]

/-- The values of the keywords are of the kind that the dialect gives them, and all names of properties
are `allowed`. -/
structure HasOpenShape (allowed : String → Prop) (keywords : Fields) : Prop where
  known : ∀ key value, keywords.get? key = some value → key ∈ openKeywords
  type : ∀ value, keywords.get? "type" = some value → ∃ name, value = .string name
  flags : ∀ key ∈ flagKeywords, ∀ value, keywords.get? key = some value → ∃ flag, value = .bool flag
  enum : ∀ value, keywords.get? "enum" = some value → ∃ values, value = .array values
  bounds : ∀ key ∈ boundKeywords, ∀ value, keywords.get? key = some value → ∃ n, value = .number n
  required : ∀ value, keywords.get? "required" = some value → ∃ names, value = .strings names
  properties : ∀ value, keywords.get? "properties" = some value → ∃ properties, value = .object properties
  names : ∀ name sub, declaredProperty? keywords name = some sub → allowed name
  further : ∀ value, keywords.get? "additionalProperties" = some value →
    (∃ flag, value = .bool flag) ∨ value.isObject = true
  lists : ∀ key ∈ schemaListKeywords, ∀ value, keywords.get? key = some value →
    ∃ subs, value = .array subs

/-- The schemas directly in a schema. -/
inductive IsInner (keywords : Fields) : Json → Prop where
  | single {key : String} {sub : Json} (hkey : key = "items" ∨ key = "not")
    (h : keywords.get? key = some sub) : IsInner keywords sub
  | further {sub : Json} (hobject : sub.isObject = true)
    (h : keywords.get? "additionalProperties" = some sub) : IsInner keywords sub
  | listed {key : String} {value sub : Json} (hkey : key ∈ schemaListKeywords)
    (h : keywords.get? key = some value) (hsub : sub ∈ listed value) : IsInner keywords sub
  | property {name : String} {sub : Json} (h : declaredProperty? keywords name = some sub) :
    IsInner keywords sub

inductive IsOpenSchema (allowed : String → Prop) : Json → Prop where
  | object {keywords : Fields} (shape : HasOpenShape allowed keywords)
    (inner : ∀ sub, IsInner keywords sub → IsOpenSchema allowed sub) :
    IsOpenSchema allowed (.object keywords)

section

variable {keywords : Fields} {sub value : Json} {name : String}

theorem sizeOf_of_get? {key : String} (h : keywords.get? key = some value) :
    sizeOf value < sizeOf (Json.object keywords) :=
  Json.sizeOf_get?_lt h

theorem IsInner.sizeOf_lt (h : IsInner keywords sub) : sizeOf sub < sizeOf (Json.object keywords) := by
  cases h with
  | single _ h => exact sizeOf_of_get? h
  | further _ h => exact sizeOf_of_get? h
  | listed _ h hsub =>
    obtain ⟨items, rfl, hitem⟩ := mem_listed.1 hsub
    exact Nat.lt_trans (Json.sizeOf_item_lt hitem) (sizeOf_of_get? h)
  | property h =>
    obtain ⟨properties, hproperties, hsub⟩ := declaredProperty?_eq_some.1 h
    exact Nat.lt_trans (Json.sizeOf_member_lt (Fields.mem_of_get? hsub)) (sizeOf_of_get? hproperties)

theorem IsInner.ordered (ho : (Json.object keywords).ordered = true) (h : IsInner keywords sub) :
    sub.ordered = true := by
  have hget : ∀ {key value}, keywords.get? key = some value → value.ordered = true :=
    fun hvalue => (Json.ordered_object.1 ho).2 _ (Fields.mem_of_get? hvalue)
  cases h with
  | single _ h => exact hget h
  | further _ h => exact hget h
  | listed _ h hsub =>
    obtain ⟨items, rfl, hitem⟩ := mem_listed.1 hsub
    exact Json.ordered_array.1 (hget h) _ hitem
  | property h =>
    obtain ⟨properties, hproperties, hsub⟩ := declaredProperty?_eq_some.1 h
    exact (Json.ordered_object.1 (hget hproperties)).2 _ (Fields.mem_of_get? hsub)

end

/-! ## The reading -/

/-- Whether a flag is set. -/
def flagged (keywords : Fields) (key : String) : Bool :=
  match keywords.get? key with
  | some (.bool flag) => flag
  | _ => false

/-- What an assertion asks beside `nullable`, which admits null. -/
def HoldsOrNull (keywords : Fields) (key : String) (inst : Json) : Prop :=
  ∀ value, keywords.get? key = some value →
    flagged keywords "nullable" = true ∧ inst = .null ∨ Assertion.Holds key value inst

/-- What a bound asks beside the flag that makes it exclusive. -/
def BoundHolds (keywords : Fields) (exclusive inclusive : String) (inst : Json) : Prop :=
  ∀ limit, keywords.get? inclusive = some limit →
    Assertion.Holds (if flagged keywords exclusive then exclusive else inclusive) limit inst

/-- What the keywords of a schema ask of an instance. `here` tells which schemas the instance passes and
`inside` which schemas its parts pass; `declared` does so for the schemas of properties, by name. -/
structure Fulfilled (here : Json → Prop) (inside : Json → Json → Prop)
    (declared : String → Json → Json → Prop) (keywords : Fields) (inst : Json) : Prop where
  type : HoldsOrNull keywords "type" inst
  enum : HoldsOrNull keywords "enum" inst
  minimum : BoundHolds keywords "exclusiveMinimum" "minimum" inst
  maximum : BoundHolds keywords "exclusiveMaximum" "maximum" inst
  required : ∀ value, keywords.get? "required" = some value → Assertion.Holds "required" value inst
  all : ∀ value, keywords.get? "allOf" = some value → ∀ sub ∈ listed value, here sub
  any : ∀ value, keywords.get? "anyOf" = some value → ∃ sub ∈ listed value, here sub
  one : ∀ value, keywords.get? "oneOf" = some value → ExactlyOne here (listed value)
  not : ∀ sub, keywords.get? "not" = some sub → ¬ here sub
  property : ∀ fields, inst = .object fields → ∀ name value, (name, value) ∈ fields →
    ∀ sub, declaredProperty? keywords name = some sub → declared name sub value
  further : ∀ fields, inst = .object fields → ∀ name value, (name, value) ∈ fields →
    declaredProperty? keywords name = none →
      keywords.get? "additionalProperties" ≠ some (.bool false) ∧
        ∀ sub, keywords.get? "additionalProperties" = some sub → sub.isObject = true →
          inside sub value
  item : ∀ items, inst = .array items → ∀ sub, keywords.get? "items" = some sub →
    ∀ item ∈ items, inside sub item

/-- What an instance has to be by a schema. Some properties may be exceptions, by their names, whose
schemas are read in another way. -/
def Admits (exceptions : String → Option (Json → Json → Prop)) (schema inst : Json) : Prop :=
  match schema with
  | .object keywords =>
    Fulfilled (fun sub => ∃ _ : sizeOf sub < sizeOf (Json.object keywords), Admits exceptions sub inst)
      (fun sub value => ∃ _ : sizeOf sub < sizeOf (Json.object keywords), Admits exceptions sub value)
      (fun name sub value =>
        match exceptions name with
        | some reads => reads sub value
        | none => ∃ _ : sizeOf sub < sizeOf (Json.object keywords), Admits exceptions sub value)
      keywords inst
  | _ => False
termination_by sizeOf schema
decreasing_by all_goals assumption

section

variable {here given : Json → Prop} {inside within : Json → Json → Prop}
  {declared stated : String → Json → Json → Prop} {keywords : Fields} {inst : Json}

theorem Fulfilled.mono (hhere : ∀ sub, IsInner keywords sub → (here sub ↔ given sub))
    (hinside : ∀ sub, IsInner keywords sub → ∀ value, value.ordered = true → inside sub value →
      within sub value)
    (hdeclared : ∀ name sub, declaredProperty? keywords name = some sub → ∀ value,
      value.ordered = true → declared name sub value → stated name sub value)
    (hinst : inst.ordered = true) (h : Fulfilled here inside declared keywords inst) :
    Fulfilled given within stated keywords inst where
  type := h.type
  enum := h.enum
  minimum := h.minimum
  maximum := h.maximum
  required := h.required
  all value hvalue sub hsub :=
    (hhere sub (.listed (by decide) hvalue hsub)).1 (h.all value hvalue sub hsub)
  any value hvalue := by
    obtain ⟨sub, hsub, hpasses⟩ := h.any value hvalue
    exact ⟨sub, hsub, (hhere sub (.listed (by decide) hvalue hsub)).1 hpasses⟩
  one value hvalue :=
    (exactlyOne_congr fun sub hsub => hhere sub (.listed (by decide) hvalue hsub)).1
      (h.one value hvalue)
  not sub hsub hgiven := h.not sub hsub ((hhere sub (.single (.inr rfl) hsub)).2 hgiven)
  property := by
    rintro fields rfl name value hmem sub hsub
    have hvalue := (Json.ordered_object.1 hinst).2 _ hmem
    exact hdeclared name sub hsub value hvalue (h.property fields rfl name value hmem sub hsub)
  further := by
    rintro fields rfl name value hmem hnone
    obtain ⟨hopen, hsub⟩ := h.further fields rfl name value hmem hnone
    have hvalue := (Json.ordered_object.1 hinst).2 _ hmem
    exact ⟨hopen, fun sub hget hobject =>
      hinside sub (.further hobject hget) value hvalue (hsub sub hget hobject)⟩
  item := by
    rintro items rfl sub hsub item hitem
    have hvalue := Json.ordered_array.1 hinst item hitem
    exact hinside sub (.single (.inl rfl) hsub) item hvalue (h.item items rfl sub hsub item hitem)

theorem Fulfilled.congr (hhere : ∀ sub, IsInner keywords sub → (here sub ↔ given sub))
    (hinside : ∀ sub, IsInner keywords sub → ∀ value, value.ordered = true →
      (inside sub value ↔ within sub value))
    (hdeclared : ∀ name sub, declaredProperty? keywords name = some sub → ∀ value,
      value.ordered = true → (declared name sub value ↔ stated name sub value))
    (hinst : inst.ordered = true) :
    Fulfilled here inside declared keywords inst ↔ Fulfilled given within stated keywords inst :=
  ⟨.mono hhere (fun sub hsub value hvalue => (hinside sub hsub value hvalue).1)
      (fun name sub hsub value hvalue => (hdeclared name sub hsub value hvalue).1) hinst,
    .mono (fun sub hsub => (hhere sub hsub).symm)
      (fun sub hsub value hvalue => (hinside sub hsub value hvalue).2)
      (fun name sub hsub value hvalue => (hdeclared name sub hsub value hvalue).2) hinst⟩

/-- A schema admits what its keywords ask, in the same reading. -/
theorem admits_object {exceptions : String → Option (Json → Json → Prop)}
    (hinst : inst.ordered = true) :
    Admits exceptions (.object keywords) inst ↔
      Fulfilled (fun sub => Admits exceptions sub inst) (Admits exceptions)
        (fun name => (exceptions name).getD (Admits exceptions)) keywords inst := by
  rw [Admits]
  refine Fulfilled.congr (fun sub hsub => ?_) (fun sub hsub value _ => ?_)
    (fun name sub hsub value _ => ?_) hinst
  · exact exists_prop_of_true hsub.sizeOf_lt
  · exact exists_prop_of_true hsub.sizeOf_lt
  · cases exceptions name with
    | some reads => exact Iff.rfl
    | none => exact exists_prop_of_true (IsInner.property hsub).sizeOf_lt

end

/-! ## A property that may be null -/

/-- A text or null. -/
def nullableText : Fields := [("nullable", .bool true), ("type", .string "string")]

/-- An object with a property that is a text or null. -/
def nullableProperty (name : String) : Fields :=
  [("properties", .object [(name, .object nullableText)]), ("type", .string "object")]

/-- An object whose property is null. -/
def nullProperty (name : String) : Json := .object [(name, .null)]

/-- The keywords of these schemas. -/
def fewKeywords : List String := ["nullable", "type", "properties"]

section

variable {keywords : Fields} {inst : Json} {here : Json → Prop} {inside : Json → Json → Prop}
  {declared : String → Json → Json → Prop} {allowed : String → Prop}

theorem get?_of_few (h : ∀ field ∈ keywords, field.1 ∈ fewKeywords) {key : String}
    (hkey : key ∉ fewKeywords) (value : Json) : keywords.get? key ≠ some value :=
  fun hvalue => hkey (h _ (Fields.mem_of_get? hvalue))

theorem fulfilled_of_few (h : ∀ field ∈ keywords, field.1 ∈ fewKeywords)
    (htype : HoldsOrNull keywords "type" inst)
    (hproperty : ∀ fields, inst = .object fields → ∀ name value, (name, value) ∈ fields →
      ∀ sub, declaredProperty? keywords name = some sub → declared name sub value) :
    Fulfilled here inside declared keywords inst where
  type := htype
  enum value hvalue := absurd hvalue (get?_of_few h (by decide) value)
  minimum limit hlimit := absurd hlimit (get?_of_few h (by decide) limit)
  maximum limit hlimit := absurd hlimit (get?_of_few h (by decide) limit)
  required value hvalue := absurd hvalue (get?_of_few h (by decide) value)
  all value hvalue := absurd hvalue (get?_of_few h (by decide) value)
  any value hvalue := absurd hvalue (get?_of_few h (by decide) value)
  one value hvalue := absurd hvalue (get?_of_few h (by decide) value)
  not sub hsub := absurd hsub (get?_of_few h (by decide) sub)
  property := hproperty
  further _ _ _ _ _ _ :=
    ⟨get?_of_few h (by decide) _, fun sub hsub => absurd hsub (get?_of_few h (by decide) sub)⟩
  item _ _ sub hsub := absurd hsub (get?_of_few h (by decide) sub)

theorem shape_of_few (h : ∀ field ∈ keywords, field.1 ∈ fewKeywords)
    (hnullable : ∀ value, keywords.get? "nullable" = some value → ∃ flag, value = .bool flag)
    (htype : ∀ value, keywords.get? "type" = some value → ∃ name, value = .string name)
    (hproperties : ∀ value, keywords.get? "properties" = some value →
      ∃ properties, value = .object properties)
    (hnames : ∀ name sub, declaredProperty? keywords name = some sub → allowed name) :
    HasOpenShape allowed keywords where
  known key value hvalue := by
    have hall : ∀ key ∈ fewKeywords, key ∈ openKeywords := by decide
    exact hall key (h _ (Fields.mem_of_get? hvalue))
  type := htype
  flags key hkey value hvalue := by
    have hfew := h _ (Fields.mem_of_get? hvalue)
    have hone : ∀ key ∈ flagKeywords, key ∈ fewKeywords → key = "nullable" := by decide
    obtain rfl := hone key hkey hfew
    exact hnullable value hvalue
  enum value hvalue := absurd hvalue (get?_of_few h (by decide) value)
  bounds key hkey value hvalue := by
    have hfew := h _ (Fields.mem_of_get? hvalue)
    have hnone : ∀ key ∈ boundKeywords, key ∉ fewKeywords := by decide
    exact absurd hfew (hnone key hkey)
  required value hvalue := absurd hvalue (get?_of_few h (by decide) value)
  properties := hproperties
  names := hnames
  further value hvalue := absurd hvalue (get?_of_few h (by decide) value)
  lists key hkey value hvalue := by
    have hfew := h _ (Fields.mem_of_get? hvalue)
    have hnone : ∀ key ∈ schemaListKeywords, key ∉ fewKeywords := by decide
    exact absurd hfew (hnone key hkey)

end

section

variable {allowed : String → Prop} {name : String}

theorem declaredProperty?_nullableProperty {other : String} {sub : Json} :
    declaredProperty? (nullableProperty name) other = some sub ↔
      name = other ∧ .object nullableText = sub := by
  have hdeclared : declaredProperty? (nullableProperty name) other =
      Fields.get? other [(name, .object nullableText)] := rfl
  rw [hdeclared, Fields.get?_cons]
  by_cases hname : name = other
  · simp [hname]
  · simp [hname]

theorem isInner_of_few {keywords : Fields} (h : ∀ field ∈ keywords, field.1 ∈ fewKeywords) {sub : Json}
    (hinner : IsInner keywords sub) : ∃ name, declaredProperty? keywords name = some sub := by
  cases hinner with
  | single hkey hget =>
    rcases hkey with rfl | rfl
    · exact absurd hget (get?_of_few h (by decide) _)
    · exact absurd hget (get?_of_few h (by decide) _)
  | further _ hget => exact absurd hget (get?_of_few h (by decide) _)
  | @listed key value _ hkey hget _ =>
    have hnone : ∀ key ∈ schemaListKeywords, key ∉ fewKeywords := by decide
    exact absurd hget (get?_of_few h (hnone key hkey) _)
  | property hdeclared => exact ⟨_, hdeclared⟩

theorem nullableText_few : ∀ field ∈ nullableText, field.1 ∈ fewKeywords := by
  simp [nullableText, fewKeywords]

theorem nullableProperty_few (name : String) :
    ∀ field ∈ nullableProperty name, field.1 ∈ fewKeywords := by
  simp [nullableProperty, fewKeywords]

theorem isOpenSchema_nullableText : IsOpenSchema allowed (.object nullableText) := by
  have hnone : ∀ other sub, declaredProperty? nullableText other ≠ some sub := fun _ _ => nofun
  refine .object (shape_of_few nullableText_few ?_ ?_ ?_ ?_) fun sub hsub => ?_
  · simp [nullableText, Fields.get?_cons]
  · simp [nullableText, Fields.get?_cons]
  · simp [nullableText, Fields.get?_cons]
  · exact fun other sub hsub => absurd hsub (hnone other sub)
  · obtain ⟨other, hother⟩ := isInner_of_few nullableText_few hsub
    exact absurd hother (hnone other sub)

theorem isOpenSchema_nullableProperty (hname : allowed name) :
    IsOpenSchema allowed (.object (nullableProperty name)) := by
  refine .object (shape_of_few (nullableProperty_few name) ?_ ?_ ?_ ?_) fun sub hsub => ?_
  · simp [nullableProperty, Fields.get?_cons]
  · simp [nullableProperty, Fields.get?_cons]
  · simp [nullableProperty, Fields.get?_cons]
  · intro other sub hsub
    obtain ⟨rfl, -⟩ := declaredProperty?_nullableProperty.1 hsub
    exact hname
  · obtain ⟨other, hother⟩ := isInner_of_few (nullableProperty_few name) hsub
    obtain ⟨-, rfl⟩ := declaredProperty?_nullableProperty.1 hother
    exact isOpenSchema_nullableText

theorem nullableProperty_admits (name : String) :
    Admits (fun _ => none) (.object (nullableProperty name)) (nullProperty name) := by
  have hnull : Admits (fun _ => none) (.object nullableText) .null := by
    refine (admits_object rfl).2 (fulfilled_of_few nullableText_few ?_ nofun)
    exact fun value _ => .inl ⟨rfl, rfl⟩
  refine (admits_object rfl).2 (fulfilled_of_few (nullableProperty_few name) ?_ ?_)
  · intro value hvalue
    cases hvalue
    exact .inr ⟨.object, List.mem_singleton.2 rfl, rfl⟩
  · rintro fields hfields other value hmem sub hsub
    cases hfields
    obtain ⟨-, rfl⟩ := Prod.mk.inj (List.mem_singleton.1 hmem)
    obtain ⟨-, rfl⟩ := declaredProperty?_nullableProperty.1 hsub
    exact hnull

end

end Dialect

end ApiContract
