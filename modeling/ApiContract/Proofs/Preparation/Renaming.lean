import ApiContract.Preparation
import ApiContract.Proofs.Json.Frame

/-! # An entry under another name

Two documents that differ only in the name of one entry of a map. The walks that prepare a document look
at every object as if it were a schema; where they find nothing to do in the maps on the way to the entry,
they keep the documents so.

* `IsMap`: no walk finds anything to do with the keys of an object.
* `Renamed`: the entry at the end of some steps has one name in the one document, another in the other.
* `IsWalk.renamed`: a walk over a document keeps the relation. -/

set_option autoImplicit false

namespace ApiContract

/-! ## Maps -/

/-- The keywords whose values the walks look at. -/
def walkedKeywords : List String :=
  ["type", "enum", "nullable", "exclusiveMinimum", "minimum", "exclusiveMaximum", "maximum", "allOf",
    "required", "properties", "discriminator", "oneOf", casesKeyword]

/-- An object whose keys are names, also to the walks. -/
structure IsMap (fields : Fields) : Prop where
  flags : ∀ key ∈ ["nullable", "exclusiveMinimum", "exclusiveMaximum"],
    ∀ flag, fields.get? key ≠ some (.bool flag)
  fragments : ∀ items, fields.get? "allOf" ≠ some (.array items)
  alternatives : ∀ given items, fields.get? "discriminator" = some (.object given) →
    fields.get? "oneOf" ≠ some (.array items)

/-- An object whose values are objects has no keywords among its keys. -/
theorem isMap_of_objects {fields : Fields}
    (h : ∀ key value, fields.get? key = some value → value.isObject = true) : IsMap fields where
  flags key _ _ hflag := nomatch h key _ hflag
  fragments _ hitems := nomatch h _ _ hitems
  alternatives _ _ _ hitems := nomatch h _ _ hitems

theorem IsMap.single (key : String) (fields : Fields) : IsMap [(key, .object fields)] := by
  refine isMap_of_objects fun other value hvalue => ?_
  cases List.mem_singleton.1 (Fields.mem_of_get? hvalue)
  rfl

/-- Values that are equal, or both lists, or both objects. -/
inductive SameKind : Json → Json → Prop where
  | refl (value : Json) : SameKind value value
  | array (items given : List Json) : SameKind (.array items) (.array given)
  | object (fields given : Fields) : SameKind (.object fields) (.object given)

theorem SameKind.symm {value given : Json} (h : SameKind value given) : SameKind given value := by
  cases h with
  | refl => exact .refl value
  | array items given => exact .array given items
  | object fields given => exact .object given fields

theorem SameKind.exists_array {value : Json} {items : List Json} (h : SameKind value (.array items)) :
    ∃ given, value = .array given := by
  cases h <;> exact ⟨_, rfl⟩

theorem SameKind.exists_object {value : Json} {fields : Fields} (h : SameKind value (.object fields)) :
    ∃ given, value = .object given := by
  cases h <;> exact ⟨_, rfl⟩

theorem SameKind.items?_eq_none {value given : Json} (h : SameKind value given)
    (hgiven : given.items? = none) : value.items? = none := by
  cases h with
  | refl => exact hgiven
  | array => cases hgiven
  | object => rfl

theorem IsMap.of_sameKind {fields results : Fields} (h : IsMap fields)
    (hback : ∀ key value, results.get? key = some value →
      ∃ old, fields.get? key = some old ∧ SameKind old value) : IsMap results := by
  refine ⟨fun key hkey flag hflag => ?_, fun items hitems => ?_, fun given items hgiven hitems => ?_⟩
  · obtain ⟨old, hold, hkind⟩ := hback key _ hflag
    cases hkind
    exact h.flags key hkey flag hold
  · obtain ⟨old, hold, hkind⟩ := hback "allOf" _ hitems
    cases hkind with
    | refl => exact h.fragments _ hold
    | array => exact h.fragments _ hold
  · obtain ⟨old, hold, hkind⟩ := hback "discriminator" _ hgiven
    obtain ⟨list, hlist, hlistkind⟩ := hback "oneOf" _ hitems
    have hobject : ∃ fields, old = .object fields := by
      cases hkind with
      | refl => exact ⟨_, rfl⟩
      | object => exact ⟨_, rfl⟩
    obtain ⟨held, rfl⟩ := hobject
    cases hlistkind with
    | refl => exact h.alternatives held _ hold hlist
    | array => exact h.alternatives held _ hold hlist

theorem IsMap.map {fields : Fields} {g : String → Json → Json} (h : IsMap fields)
    (hg : ∀ key value, SameKind value (g key value)) :
    IsMap (fields.map fun field => (field.1, g field.1 field.2)) := by
  refine h.of_sameKind fun key value hvalue => ?_
  rw [Fields.get?_map, Option.map_eq_some_iff] at hvalue
  obtain ⟨old, hold, rfl⟩ := hvalue
  exact ⟨old, hold, hg key old⟩

theorem IsMap.mapValues? {fields results : Fields} {g : String → Json → Option Json} (h : IsMap fields)
    (hg : ∀ key value result, g key value = some result → SameKind value result)
    (hresults : Fields.mapValues? g fields = some results) : IsMap results := by
  refine h.of_sameKind fun key value hvalue => ?_
  rw [Fields.get?_of_mapValues? hresults, Option.bind_eq_some_iff] at hvalue
  obtain ⟨old, hold, hvalue⟩ := hvalue
  exact ⟨old, hold, hg key old value hvalue⟩

/-! ## The relation -/

/-- A step to the value of a key, and what holds of the keys beside it. -/
structure Step where
  key : String
  apart : String → Prop

/-- A step to a key of which nothing is said beside it. -/
def Step.to (key : String) : Step := ⟨key, fun _ => True⟩

/-- A step into a map. -/
structure Step.IntoMap (step : Step) (frame : Frame step.key) (left right : Json) : Prop where
  left : IsMap (frame.fill left)
  right : IsMap (frame.fill right)
  others : ∀ other ∈ frame.otherKeys, step.apart other

/-- A step that the walks keep: its key is none of theirs, or it is a name in a map. -/
def Step.Kept (step : Step) (frame : Frame step.key) (left right : Json) : Prop :=
  (step.key ∉ walkedKeywords ∧ ∀ other, step.apart other) ∨ step.IntoMap frame left right

theorem Step.Kept.apart {step : Step} {frame : Frame step.key} {left right : Json}
    (h : step.Kept frame left right) : ∀ other ∈ frame.otherKeys, step.apart other := by
  rcases h with ⟨-, hall⟩ | hmap
  · exact fun other _ => hall other
  · exact hmap.others

/-- Two values that differ in the name of one entry, which is the `first` in the one and the `second`
in the other. The map with the entry is at the end of the steps. -/
inductive Renamed (first second : String) : List Step → Json → Json → Prop where
  | entry {others : Fields} {value : Json} (hfirst : others.get? first = none)
    (hsecond : others.get? second = none) (hleft : IsMap (others.insert first value))
    (hright : IsMap (others.insert second value)) :
    Renamed first second [] (.object (others.insert first value)) (.object (others.insert second value))
  | step (step : Step) {steps : List Step} {left right : Json} (frame : Frame step.key)
    (hkept : step.Kept frame left right) (h : Renamed first second steps left right) :
    Renamed first second (step :: steps) (.object (frame.fill left)) (.object (frame.fill right))

/-! ## Walks -/

/-- What a walk makes of the value of a key: it `passes` over some keys. -/
def walkField (walk : Json → Json) (passes : String → Bool) (key : String) (value : Json) : Json :=
  if passes key then value else walk value

/-- Replacing the values of an object leaves its keys in order. -/
theorem ordered_map {g : String → Json → Json} {fields : Fields} (h : (Json.object fields).ordered = true)
    (hg : ∀ field ∈ fields, field.2.ordered = true → (g field.1 field.2).ordered = true) :
    (Json.object (fields.map fun field => (field.1, g field.1 field.2))).ordered = true := by
  obtain ⟨ho, hvalues⟩ := Json.ordered_object.1 h
  have hkeys : (fields.map fun field => (field.1, g field.1 field.2)).map Prod.fst =
      fields.map Prod.fst := by
    rw [List.map_map]
    rfl
  rw [Json.ordered_object, List.forall_mem_map]
  exact ⟨Fields.ordered_of_keys hkeys ho, fun field hfield => hg field hfield (hvalues field hfield)⟩

theorem ordered_walkFields {walk : Json → Json} {passes : String → Bool} {fields : Fields}
    (h : (Json.object fields).ordered = true)
    (hwalk : ∀ field ∈ fields, field.2.ordered = true → (walk field.2).ordered = true) :
    (Json.object (fields.map fun field =>
      (field.1, walkField walk passes field.1 field.2))).ordered = true := by
  refine ordered_map h fun field hfield hvalue => ?_
  unfold walkField
  split
  · exact hvalue
  · exact hwalk field hfield hvalue

/-- A walk over a document: it goes to the fields of an object first and then looks at the object as a
schema. -/
structure IsWalk (walk : Json → Json) (passes : String → Bool) (finish : Fields → Fields) : Prop where
  object : ∀ fields, walk (.object fields) =
    .object (finish (fields.map fun field => (field.1, walkField walk passes field.1 field.2)))
  kind : ∀ value, SameKind value (walk value)
  map : ∀ fields, IsMap fields → finish fields = fields
  frame : ∀ {key : String} (frame : Frame key), key ∉ walkedKeywords →
    ∃ next : Frame key, ∀ value, finish (frame.fill value) = next.fill value

theorem IsWalk.sameKind_walkField {walk : Json → Json} {passes : String → Bool} {finish : Fields → Fields}
    (hwalk : IsWalk walk passes finish) (key : String) (value : Json) :
    SameKind value (walkField walk passes key value) := by
  unfold walkField
  split
  · exact .refl value
  · exact hwalk.kind value

theorem IsWalk.renamed {walk : Json → Json} {passes : String → Bool} {finish : Fields → Fields}
    {first second : String} {steps : List Step} {left right : Json}
    (hwalk : IsWalk walk passes finish) (hpasses : passes first = passes second)
    (h : Renamed first second steps left right) :
    Renamed first second steps (walk left) (walk right) := by
  have hkinds := hwalk.sameKind_walkField
  induction h with
  | @entry others value hfirst hsecond hleft hright =>
    have hends : walkField walk passes second value = walkField walk passes first value := by
      rw [walkField, walkField, hpasses]
    -- the walk has been at the fields when it looks at the object; a map is still one then
    have hone := hleft.map hkinds
    have htwo := hright.map hkinds
    rw [hwalk.object, hwalk.object, hwalk.map _ hone, hwalk.map _ htwo]
    rw [Fields.map_insert] at hone htwo ⊢
    rw [Fields.map_insert]
    rw [hends] at htwo ⊢
    refine .entry ?_ ?_ hone htwo
    · rw [Fields.get?_map, hfirst]
      rfl
    · rw [Fields.get?_map, hsecond]
      rfl
  | @step step steps left right frame hkept h ih =>
    have hinner : Renamed first second steps (walkField walk passes step.key left)
        (walkField walk passes step.key right) := by
      unfold walkField
      cases passes step.key with
      | true => exact h
      | false => exact ih
    obtain ⟨next, hkeys, hnext⟩ := frame.exists_map (walkField walk passes)
    rw [hwalk.object, hwalk.object, hnext, hnext]
    rcases hkept with ⟨hkey, hall⟩ | hmaps
    · obtain ⟨final, hfinal⟩ := hwalk.frame next hkey
      rw [hfinal, hfinal]
      exact .step step final (.inl ⟨hkey, hall⟩) hinner
    · have hone := hmaps.left.map hkinds
      have htwo := hmaps.right.map hkinds
      rw [hnext] at hone htwo
      rw [hwalk.map _ hone, hwalk.map _ htwo]
      exact .step step next (.inr ⟨hone, htwo, hkeys ▸ hmaps.others⟩) hinner

/-! ## The dialect -/

namespace Dialect

variable {key : String} {fields : Fields}

theorem normalizeNullable_of_map (h : IsMap fields) : normalizeNullable fields = fields := by
  unfold normalizeNullable
  split
  · rename_i hflag
    exact absurd hflag (h.flags _ (by decide) _)
  · rfl

theorem normalizeBound_of_map {exclusive inclusive : String} (h : IsMap fields)
    (hkey : exclusive ∈ ["nullable", "exclusiveMinimum", "exclusiveMaximum"]) :
    normalizeBound exclusive inclusive fields = fields := by
  unfold normalizeBound
  split
  · rename_i hflag
    exact absurd hflag (h.flags _ hkey _)
  · rename_i hflag
    exact absurd hflag (h.flags _ hkey _)
  · rfl

theorem normalizeKeywords_of_map (h : IsMap fields) : normalizeKeywords fields = fields := by
  rw [normalizeKeywords, normalizeNullable_of_map h, normalizeBound_of_map h (by decide),
    normalizeBound_of_map h (by decide)]

theorem exists_allowNullType (frame : Frame key) (h : "type" ≠ key) :
    ∃ next : Frame key, ∀ value, allowNullType (frame.fill value) = next.fill value := by
  unfold allowNullType
  simp only [frame.get?_fill _ h]
  split
  · exact frame.exists_insert h _
  · exact ⟨frame, fun _ => rfl⟩

theorem exists_allowNullValue (frame : Frame key) (h : "enum" ≠ key) :
    ∃ next : Frame key, ∀ value, allowNullValue (frame.fill value) = next.fill value := by
  unfold allowNullValue
  simp only [frame.get?_fill _ h]
  split
  · split
    · exact ⟨frame, fun _ => rfl⟩
    · exact frame.exists_insert h _
  · exact ⟨frame, fun _ => rfl⟩

theorem exists_normalizeNullable (frame : Frame key) (hnullable : "nullable" ≠ key)
    (htype : "type" ≠ key) (henum : "enum" ≠ key) :
    ∃ next : Frame key, ∀ value, normalizeNullable (frame.fill value) = next.fill value := by
  unfold normalizeNullable
  simp only [frame.get?_fill _ hnullable]
  split
  · obtain ⟨erased, herased⟩ := frame.exists_erase hnullable
    obtain ⟨typed, htyped⟩ := exists_allowNullType erased htype
    obtain ⟨next, hnext⟩ := exists_allowNullValue typed henum
    exact ⟨next, fun value => by rw [herased, htyped, hnext]⟩
  · exact ⟨frame, fun _ => rfl⟩

theorem exists_normalizeBound {exclusive inclusive : String} (frame : Frame key)
    (hexclusive : exclusive ≠ key) (hinclusive : inclusive ≠ key) :
    ∃ next : Frame key, ∀ value,
      normalizeBound exclusive inclusive (frame.fill value) = next.fill value := by
  obtain ⟨rest, hrest⟩ := frame.exists_erase hexclusive
  unfold normalizeBound
  simp only [frame.get?_fill _ hexclusive, hrest, rest.get?_fill _ hinclusive]
  split
  · split
    · rename_i bound _
      obtain ⟨erased, herased⟩ := rest.exists_erase hinclusive
      obtain ⟨next, hnext⟩ := erased.exists_insert hexclusive bound
      exact ⟨next, fun value => by rw [herased, hnext]⟩
    · exact ⟨rest, fun _ => rfl⟩
  · exact ⟨rest, fun _ => rfl⟩
  · exact ⟨frame, fun _ => rfl⟩

theorem exists_normalizeKeywords (frame : Frame key) (h : key ∉ walkedKeywords) :
    ∃ next : Frame key, ∀ value, normalizeKeywords (frame.fill value) = next.fill value := by
  have hne : ∀ keyword ∈ walkedKeywords, keyword ≠ key := fun keyword hmem heq => h (heq ▸ hmem)
  obtain ⟨nullable, hnullable⟩ := exists_normalizeNullable frame (hne _ (by decide))
    (hne _ (by decide)) (hne _ (by decide))
  obtain ⟨least, hleast⟩ := exists_normalizeBound nullable (hne "exclusiveMinimum" (by decide))
    (hne "minimum" (by decide))
  obtain ⟨next, hnext⟩ := exists_normalizeBound least (hne "exclusiveMaximum" (by decide))
    (hne "maximum" (by decide))
  exact ⟨next, fun value => by rw [normalizeKeywords, hnullable, hleast, hnext]⟩

end Dialect

theorem normalizeFields_eq_map (fields : Fields) : normalizeFields fields =
    fields.map fun field =>
      (field.1, walkField normalizeDialect isDataKeyword field.1 field.2) := by
  induction fields with
  | nil => rfl
  | cons field rest ih =>
    rw [normalizeFields, ih, List.map_cons]
    rfl

theorem normalizeItems_eq_map (items : List Json) :
    normalizeItems items = items.map normalizeDialect := by
  induction items with
  | nil => rfl
  | cons item rest ih => rw [normalizeItems, ih, List.map_cons]

theorem isWalk_normalizeDialect :
    IsWalk normalizeDialect isDataKeyword Dialect.normalizeKeywords where
  object fields := by rw [normalizeDialect, normalizeFields_eq_map]
  kind value := by
    cases value with
    | object fields => exact .object ..
    | array items => exact .array ..
    | _ => exact .refl _
  map _ := Dialect.normalizeKeywords_of_map
  frame := Dialect.exists_normalizeKeywords

end ApiContract
