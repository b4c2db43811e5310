import ApiContract.Proofs.Preparation.Tagging

/-! # Alternatives that get a case

A value of the tag has one case: what the mapping gives it, else the first alternative that it is a tag of.
An alternative all of whose values are taken gets none, although each alternative had to have values for
the table to be made.

* `IsCovered`: a table that has an alternative, or a reference to the same component.
* `get?_discriminatorCases?`: what a value stands for.
* `isCovered_iff`, `isCovered_nodeWithCases_iff`: an alternative is covered if and only if it has a value
  of its own.
* `isCovered_of_apart`: alternatives with values of their own are all covered. -/

set_option autoImplicit false

namespace ApiContract

/-! ## Tables that have an alternative -/

/-- Two texts that lead to the same part of every document. -/
def ReferAlike (first second : String) : Prop :=
  first = second ∨ ∃ steps, pointerSteps? first = some steps ∧ pointerSteps? second = some steps

/-- An entry that applies an alternative: it is the alternative itself, or it refers to the component that
the alternative refers to. -/
inductive IsCaseOf (branch : Json) : Json → Prop where
  | same : IsCaseOf branch branch
  | component {entry : Json} {first second : String} (hbranch : branch.reference? = some first)
    (hentry : entry.reference? = some second) (halike : ReferAlike first second) : IsCaseOf branch entry

/-- An alternative that is no reference is only applied by itself. -/
theorem IsCaseOf.eq_of_inline {branch entry : Json} (h : IsCaseOf branch entry)
    (hinline : branch.reference? = none) : entry = branch := by
  cases h with
  | same => rfl
  | component hbranch => exact absurd (hinline.symm.trans hbranch) (Option.some_ne_none _).symm

/-- An alternative that some value of the tag selects. -/
def IsCovered (cases : Fields) (branch : Json) : Prop :=
  ∃ value entry, cases.get? value = some entry ∧ IsCaseOf branch entry

/-- The case that a mapping gives to one of its values. -/
def referenceTo (reference : String) : Json := .object [("$ref", .string reference)]

theorem reference?_referenceTo (reference : String) :
    (referenceTo reference).reference? = some reference := rfl

/-! ## What a value stands for -/

section

variable {document : Json} {tag text : String} {branches : List Json} {cases mapping : Fields}
  {references : List (String × String)}

/-- The references that a mapping names. -/
def mappedReferences (mapping : Fields) : List String := mapping.filterMap fun field => field.2.string?

theorem eq_of_mappingReferences? (h : mappingReferences? mapping = some references) :
    mapping = references.map fun entry => (entry.1, .string entry.2) := by
  induction mapping generalizing references with
  | nil =>
    cases h
    rfl
  | cons field rest ih =>
    obtain ⟨value, held⟩ := field
    cases held with
    | string reference =>
      obtain ⟨others, hothers, rfl⟩ := Option.map_eq_some_iff.1 h
      rw [List.map_cons, ← ih hothers]
    | _ => cases h

/-- The table of a mapping has a reference for each text of it. -/
theorem get?_mapped (hmapping : mapping.Ordered) (h : mappingReferences? mapping = some references) :
    (Fields.ofList (references.map fun entry => (entry.1, referenceTo entry.2))).get? text =
      (mapping.get? text).map fun reference => .object [("$ref", reference)] := by
  have htable : (references.map fun entry => (entry.1, referenceTo entry.2)) =
      mapping.map fun field => (field.1, .object [("$ref", field.2)]) := by
    rw [eq_of_mappingReferences? h, List.map_map]
    rfl
  have hordered : Fields.Ordered (mapping.map fun field => (field.1, .object [("$ref", field.2)])) := by
    refine Fields.ordered_of_keys ?_ hmapping
    rw [List.map_map]
    rfl
  rw [htable, Fields.get?_ofList_of_ordered hordered]
  exact Fields.get?_map fun _ held => .object [("$ref", held)]

theorem mappedReferences_eq (h : mappingReferences? mapping = some references) :
    references.map (·.2) = mappedReferences mapping := by
  rw [mappedReferences, eq_of_mappingReferences? h, List.filterMap_map]
  exact (congrFun List.filterMap_eq_map references).symm

/-- A value stands for what the mapping says, else for the first alternative that claims it. -/
theorem get?_discriminatorCases? (hmapping : mapping.Ordered)
    (h : discriminatorCases? document tag mapping branches = some cases) :
    cases.get? text = ((mapping.get? text).map fun reference => .object [("$ref", reference)]).or
      (branches.find? (claims document tag (mappedReferences mapping) text)) := by
  obtain ⟨references, hreferences, hadded⟩ := Option.bind_eq_some_iff.1 h
  rw [get?_addBranches hadded, mappedReferences_eq hreferences]
  exact congrArg (Option.or · _) (get?_mapped hmapping hreferences)

theorem exists_of_get?_mapping {held : Json} (h : discriminatorCases? document tag mapping branches = some cases)
    (hheld : mapping.get? text = some held) : ∃ reference, held = .string reference := by
  obtain ⟨references, hreferences, -⟩ := Option.bind_eq_some_iff.1 h
  rw [eq_of_mappingReferences? hreferences] at hheld
  obtain ⟨entry, -, heq⟩ := List.mem_map.1 (Fields.mem_of_get? hheld)
  exact ⟨entry.2, congrArg Prod.snd heq.symm⟩

end

/-! ## Alternatives that are covered -/

/-- An alternative with a value of its own: one that the mapping has for it, or one that the mapping does not
have and no other alternative claims before it. -/
def HasOwnValue (document : Json) (tag : String) (mapping : Fields) (branches : List Json) (branch : Json) :
    Prop :=
  (∃ value reference, mapping.get? value = some (.string reference) ∧
    IsCaseOf branch (referenceTo reference)) ∨
  ∃ value first, mapping.get? value = none ∧
    branches.find? (claims document tag (mappedReferences mapping) value) = some first ∧
    IsCaseOf branch first

section

variable {document branch : Json} {tag : String} {branches : List Json} {cases mapping fields : Fields}

/-- The table covers the alternatives that have a value of their own, and loses the others. -/
theorem isCovered_iff (hmapping : mapping.Ordered)
    (h : discriminatorCases? document tag mapping branches = some cases) :
    IsCovered cases branch ↔ HasOwnValue document tag mapping branches branch := by
  constructor
  · rintro ⟨value, entry, hentry, hcase⟩
    rw [get?_discriminatorCases? hmapping h] at hentry
    cases hheld : mapping.get? value with
    | some held =>
      obtain ⟨reference, rfl⟩ := exists_of_get?_mapping h hheld
      rw [hheld, Option.map_some, Option.some_or] at hentry
      cases hentry
      exact .inl ⟨value, reference, hheld, hcase⟩
    | none =>
      rw [hheld, Option.map_none, Option.none_or] at hentry
      exact .inr ⟨value, entry, hheld, hentry, hcase⟩
  · rintro (⟨value, reference, hheld, hcase⟩ | ⟨value, first, hheld, hfirst, hcase⟩)
    · refine ⟨value, _, ?_, hcase⟩
      rw [get?_discriminatorCases? hmapping h, hheld]
      rfl
    · refine ⟨value, first, ?_, hcase⟩
      rw [get?_discriminatorCases? hmapping h, hheld, hfirst]
      rfl

/-- Nothing is lost where each alternative is named by the mapping or has a value that neither the mapping nor
another alternative has. -/
theorem isCovered_of_apart (hmapping : mapping.Ordered)
    (h : discriminatorCases? document tag mapping branches = some cases) (hbranch : branch ∈ branches)
    (hown : branch.reference?.any (mappedReferences mapping).contains = true ∨
      ∃ value ∈ branchTags document tag branch, mapping.get? value = none ∧
        ∀ other ∈ branches, value ∈ branchTags document tag other → other = branch) :
    IsCovered cases branch := by
  rw [isCovered_iff hmapping h]
  by_cases hmapped : branch.reference?.any (mappedReferences mapping).contains = true
  · obtain ⟨reference, hreference, hcontains⟩ := (Option.any_eq_true _ _).1 hmapped
    obtain ⟨field, hfield, hheld⟩ := List.mem_filterMap.1 (List.contains_iff_mem.1 hcontains)
    obtain ⟨value, held⟩ := field
    have hget := Fields.get?_of_mem hmapping hfield
    obtain ⟨named, rfl⟩ := exists_of_get?_mapping h hget
    cases hheld
    exact .inl ⟨value, reference, hget,
      .component hreference (reference?_referenceTo reference) (.inl rfl)⟩
  · obtain ⟨value, hvalue, hfree, hother⟩ := hown.resolve_left hmapped
    have hclaims : claims document tag (mappedReferences mapping) value branch = true := by
      rw [claims, Bool.eq_false_iff.2 hmapped, decide_eq_true hvalue]
      rfl
    cases hfirst : branches.find? (claims document tag (mappedReferences mapping) value) with
    | none => exact absurd hclaims (List.find?_eq_none.1 hfirst branch hbranch)
    | some first =>
      have hmem := List.find?_some hfirst
      rw [claims, Bool.and_eq_true, decide_eq_true_iff] at hmem
      have hsame := hother first (List.mem_of_find?_eq_some hfirst) hmem.2
      exact .inr ⟨value, first, hfree, hfirst, hsame ▸ .same⟩

theorem ordered_discriminatorMapping (h : (Json.object fields).ordered = true) :
    (discriminatorMapping fields).Ordered := by
  unfold discriminatorMapping
  cases hmapping : ((fields.get? "discriminator").bind (·.get? "mapping")).bind Json.fields? with
  | none => exact Fields.ordered_nil
  | some mapping =>
    obtain ⟨held, hheld, hfields⟩ := Option.bind_eq_some_iff.1 hmapping
    obtain ⟨discriminator, hdiscriminator, hheld⟩ := Option.bind_eq_some_iff.1 hheld
    have hordered := Json.ordered_of_get? (Json.ordered_of_get? h hdiscriminator) hheld
    cases held with
    | object given =>
      cases hfields
      exact (Json.ordered_object.1 hordered).1
    | _ => cases hfields

/-- Alternatives that are gone have become a table of cases. -/
theorem exists_of_replaced (hbranches : fields.get? "oneOf" = some (.array branches))
    (hreplaced : (schemaWithCases document fields).get? "oneOf" = none) :
    ∃ tag cases, discriminatorTag? fields = some tag ∧
      discriminatorCases? document tag (discriminatorMapping fields) branches = some cases ∧
      schemaWithCases document fields = withCases tag cases fields := by
  unfold schemaWithCases at hreplaced ⊢
  rw [hbranches] at hreplaced ⊢
  cases htag : discriminatorTag? fields with
  | none =>
    rw [htag] at hreplaced
    exact absurd (hbranches.symm.trans hreplaced) (Option.some_ne_none _)
  | some tag =>
    rw [htag] at hreplaced
    dsimp only at hreplaced ⊢
    cases hcases : discriminatorCases? document tag (discriminatorMapping fields) branches with
    | none =>
      rw [hcases] at hreplaced
      exact absurd (hbranches.symm.trans hreplaced) (Option.some_ne_none _)
    | some cases => exact ⟨tag, cases, rfl, hcases, rfl⟩

/-- An alternative of a schema that gets cases has one if and only if it has a value of its own. -/
theorem isCovered_nodeWithCases_iff (hordered : (Json.object fields).ordered = true)
    (hbranches : (fieldsWithCases document fields).get? "oneOf" = some (.array branches))
    (hreplaced : (nodeWithCases document (.object fields)).get? "oneOf" = none) :
    ∃ tag cases, discriminatorTag? (fieldsWithCases document fields) = some tag ∧
      (nodeWithCases document (.object fields)).get? casesKeyword = some (.object cases) ∧
      ∀ branch ∈ branches, IsCovered cases branch ↔ HasOwnValue document tag
        (discriminatorMapping (fieldsWithCases document fields)) branches branch := by
  have hinside : (Json.object (fieldsWithCases document fields)).ordered = true := by
    rw [fieldsWithCases_eq_map]
    exact ordered_walkFields hordered fun _ _ => ordered_nodeWithCases
  rw [nodeWithCases, Json.get?] at hreplaced ⊢
  obtain ⟨tag, cases, htag, hcases, hresult⟩ := exists_of_replaced hbranches hreplaced
  refine ⟨tag, cases, htag, ?_, fun branch _ =>
    isCovered_iff (ordered_discriminatorMapping hinside) hcases⟩
  rw [hresult, get?_withCases, if_pos rfl]

end

/-! ## Two pets of one kind -/

/-- An alternative for one kind of pets that asks for a property. -/
def petWith (property : String) : Json :=
  .object [("properties", .object [("kind", .object [("const", .string "pet")])]),
    ("required", .array [.string property])]

/-- Two alternatives that have one value of the tag in common. -/
def petsOfOneKind : Fields :=
  [("discriminator", .object [("propertyName", .string "kind")]),
    ("oneOf", .array [petWith "meows", petWith "barks"])]

/-- The table that keeps the first of them only. -/
def tableOfPets : Fields := [("pet", petWith "meows")]

/-- The document of these alternatives. -/
def pairOfPets : Json := .object petsOfOneKind

theorem pairOfPets_covered :
    ∃ tag cases, discriminatorTag? (fieldsWithCases pairOfPets petsOfOneKind) = some tag ∧
      (nodeWithCases pairOfPets pairOfPets).get? casesKeyword = some (.object cases) ∧
      ∀ branch ∈ [petWith "meows", petWith "barks"], IsCovered cases branch ↔
        HasOwnValue pairOfPets tag (discriminatorMapping (fieldsWithCases pairOfPets petsOfOneKind))
          [petWith "meows", petWith "barks"] branch :=
  isCovered_nodeWithCases_iff (by decide) rfl rfl

/-- The second pet is in no entry of the table, though its schema has lost its alternatives. -/
theorem secondPet_lost :
    (fieldsWithCases pairOfPets petsOfOneKind).get? "oneOf" =
        some (.array [petWith "meows", petWith "barks"]) ∧
      (nodeWithCases pairOfPets pairOfPets).get? "oneOf" = none ∧
      (nodeWithCases pairOfPets pairOfPets).get? casesKeyword = some (.object tableOfPets) ∧
      ¬ IsCovered tableOfPets (petWith "barks") := by
  refine ⟨rfl, rfl, rfl, ?_⟩
  rintro ⟨value, entry, hentry, hcase⟩
  have hmem := List.mem_singleton.1 (Fields.mem_of_get? hentry)
  obtain ⟨-, rfl⟩ := Prod.mk.inj hmem
  have hsame := hcase.eq_of_inline rfl
  simp [petWith] at hsame

end ApiContract
