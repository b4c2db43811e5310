import ApiContract.Proofs.Preparation.Named
import ApiContract.Proofs.Preparation.Reflecting
import ApiContract.Proofs.Preparation.Retaining

/-! # Maps without lists

The walks of the preparation take every object for a schema, also a map whose keys are names. A map without
lists comes out of them without lists, unless its names say that null is one more type.

* `Unlisted`, `Nulled`: a map without lists, and one whose names are read as a nullable type.
* `Unlisted.normalized`, `Unlisted.withCases`: what the walks make of a map without lists.
* `Walked.exists_get?`: flattening leaves the objects of an object in their places.
* `exists_paths_prepare`: the paths of a prepared document. -/

set_option autoImplicit false

namespace ApiContract

open Dialect

/-- No value of an object is a list. -/
def Unlisted (fields : Fields) : Prop :=
  ∀ key value, fields.get? key = some value → value.items? = none

/-- The keys of an object say that null is one more type beside a single one. -/
def Nulled (fields : Fields) : Prop :=
  fields.get? "nullable" = some (.bool true) ∧ ∃ text, fields.get? "type" = some (.string text)

section

variable {fields results : Fields} {key : String} {value : Json}

theorem SameKind.unlisted {given : Json} (h : SameKind value given) (hvalue : value.items? = none) :
    given.items? = none := by
  cases h with
  | refl => exact hvalue
  | array => cases hvalue
  | object => rfl

theorem SameKind.object_of (h : SameKind (.object fields) value) : ∃ given, value = .object given := by
  cases h <;> exact ⟨_, rfl⟩

theorem Unlisted.of_sameKind (h : Unlisted fields)
    (hback : ∀ key value, results.get? key = some value →
      ∃ old, fields.get? key = some old ∧ SameKind old value) : Unlisted results := by
  intro key value hvalue
  obtain ⟨old, hold, hkind⟩ := hback key value hvalue
  exact hkind.unlisted (h key old hold)

theorem Unlisted.map {g : String → Json → Json} (h : Unlisted fields)
    (hg : ∀ key value, SameKind value (g key value)) :
    Unlisted (fields.map fun field => (field.1, g field.1 field.2)) := by
  refine h.of_sameKind fun key value hvalue => ?_
  rw [Fields.get?_map, Option.map_eq_some_iff] at hvalue
  obtain ⟨old, hold, rfl⟩ := hvalue
  exact ⟨old, hold, hg key old⟩

theorem Unlisted.erase (h : Unlisted fields) (key : String) : Unlisted (fields.erase key) := by
  intro other value hvalue
  rw [Fields.get?_erase] at hvalue
  split at hvalue
  · cases hvalue
  · exact h other value hvalue

theorem Unlisted.insert (h : Unlisted fields) (key : String) (hvalue : value.items? = none) :
    Unlisted (fields.insert key value) := by
  intro other held hheld
  rw [Fields.get?_insert] at hheld
  split at hheld
  · cases hheld
    exact hvalue
  · exact h other held hheld

/-! ## The dialect -/

theorem Unlisted.normalizeNullable (h : Unlisted fields) (hnull : ¬ Nulled fields) :
    Unlisted (normalizeNullable fields) := by
  unfold Dialect.normalizeNullable
  split
  · rename_i hflag
    intro key value hvalue
    rw [get?_allowNullValue, get?_allowNullType, Fields.get?_erase, Option.map_map,
      Option.map_eq_some_iff] at hvalue
    obtain ⟨old, hold, rfl⟩ := hvalue
    split at hold
    · cases hold
    · have hunlisted := h key old hold
      rw [Function.comp_apply]
      by_cases htype : key = "type"
      · subst htype
        cases old with
        | string text => exact absurd ⟨hflag, text, hold⟩ hnull
        | _ => exact hunlisted
      · rw [if_neg htype]
        cases old with
        | array items => cases hunlisted
        | _ => split <;> rfl
  · exact h

theorem Unlisted.normalizeBound (h : Unlisted fields) (exclusive inclusive : String) :
    Unlisted (normalizeBound exclusive inclusive fields) := by
  unfold Dialect.normalizeBound
  split
  · simp only
    split
    · rename_i bound hbound
      exact ((h.erase exclusive).erase inclusive).insert exclusive
        ((h.erase exclusive) inclusive bound hbound)
    · exact h.erase exclusive
  · exact h.erase exclusive
  · exact h

theorem Unlisted.normalized (h : Unlisted fields) (hnull : ¬ Nulled fields) :
    Unlisted (normalized fields) := by
  have hkinds := isWalk_normalizeDialect.sameKind_walkField
  have hwalked : Unlisted (normalizeFields fields) := by
    rw [normalizeFields_eq_map]
    exact h.map hkinds
  refine ((hwalked.normalizeNullable fun hnulled => hnull ?_).normalizeBound _ _).normalizeBound _ _
  obtain ⟨hflag, text, htext⟩ := hnulled
  refine ⟨get?_normalizeFields_flag.1 hflag, text, ?_⟩
  rw [get?_normalizeFields, Option.map_eq_some_iff] at htext
  obtain ⟨old, hold, hsame⟩ := htext
  have hkind := hkinds "type" old
  rw [hsame] at hkind
  cases hkind
  exact hold

/-! ## Flattening -/

/-- Merging leaves the objects of an object in their places, but for its properties. -/
theorem Walked.exists_get? {document result : Json} {depth : Nat} {followed : List String}
    {inner : Fields} (h : Walked document depth followed (.object fields) result)
    (hall : key ≠ "allOf") (hproperties : key ≠ "properties")
    (hvalue : fields.get? key = some (.object inner)) :
    ∃ flat, result.get? key = some flat ∧ Walked document depth followed (.object inner) flat := by
  cases h with
  | kept => exact ⟨_, hvalue, .kept _⟩
  | @flattened within _ _ hwithin h =>
    cases within with
    | zero => cases h
    | succ within =>
      rw [flattenNode?_object, Option.bind_eq_some_iff] at h
      obtain ⟨keywords, hkeywords, hflat⟩ := h
      obtain ⟨results, hresults, rfl⟩ := Option.map_eq_some_iff.1 hflat
      obtain ⟨held, hheld, hretained⟩ :=
        exists_retained_composedFields? hkeywords (fun _ _ => hall) hvalue
      have hsame : held = .object inner := by
        cases hretained with
        | lengthened hlonger =>
          cases hlonger with
          | same => rfl
          | scalar hobject _ => cases hobject
        | properties hkey _ => exact absurd hkey hproperties
      rw [hsame] at hheld
      obtain ⟨flat, hflat, hwalk, -⟩ :=
        (walkedFields_of_mapValues? (Nat.le_of_succ_le hwithin) hresults).exists_result hheld
      exact ⟨flat, hflat, hwalk⟩

/-! ## Cases -/

theorem Unlisted.withCases (h : Unlisted fields) (document : Json) :
    ∃ results, nodeWithCases document (.object fields) = .object results ∧ Unlisted results := by
  have hmapped := h.map (isWalk_nodeWithCases document).sameKind_walkField
  refine ⟨_, (isWalk_nodeWithCases document).object fields, ?_⟩
  unfold schemaWithCases
  split
  · rename_i hlist
    cases hmapped _ _ hlist
  · exact hmapped

end

/-! ## The paths of a document -/

theorem get?_closeComponentSchemas {key : String} (h : key ≠ "components") (document : Json) :
    (closeComponentSchemas document).get? key = document.get? key := by
  cases document with
  | object fields =>
    rw [closeComponentSchemas, mapField_object, Json.get?, Json.get?, Fields.get?_map]
    cases Fields.get? key fields with
    | none => rfl
    | some value => exact congrArg some (if_neg (by simpa using h))
  | _ => rfl

/-- The paths of a document whose items are no lists are still there when it is prepared, and their items
are still no lists. -/
theorem exists_paths_prepare (options : Options) {fields paths : Fields}
    (hpaths : fields.get? "paths" = some (.object paths)) (hlists : Unlisted paths)
    (hnull : ¬ Nulled paths) :
    ∃ prepared, (prepare options (.object fields)).get? "paths" = some (.object prepared) ∧
      Unlisted prepared := by
  have hnormal : (normalized fields).get? "paths" = some (.object (normalized paths)) := by
    rw [get?_normalized_of_not_walked (by decide), hpaths, Option.map_some, walkField,
      if_neg (by decide), normalizeDialect_object]
  have hunlisted := hlists.normalized hnull
  have hflat : ∃ flat, (flattened (.object fields)).get? "paths" = some (.object flat) ∧
      Unlisted flat := by
    have hwalked := walked_flattenCompositions (normalizeDialect (.object fields))
    rw [normalizeDialect_object] at hwalked
    obtain ⟨value, hvalue, hwalk⟩ := hwalked.exists_get? (by decide) (by decide) hnormal
    obtain ⟨flat, rfl, hfields⟩ := hwalk.object fun items hitems => by cases hunlisted _ _ hitems
    refine ⟨flat, ?_, hunlisted.of_sameKind fun key value hvalue => ?_⟩
    · rw [flattened, normalizeDialect_object, hvalue]
    · obtain ⟨old, hold, hone⟩ := hfields.value hvalue
      exact ⟨old, hold, hone.sameKind⟩
  obtain ⟨flat, hflat, hunlisted⟩ := hflat
  have hcases : ∀ document : Json, document.get? "paths" = some (.object flat) →
      ∃ prepared, (introduceCases document).get? "paths" = some (.object prepared) ∧
        Unlisted prepared := by
    intro document hdocument
    obtain ⟨prepared, hprepared, hlast⟩ := hunlisted.withCases document
    refine ⟨prepared, ?_, hlast⟩
    rw [introduceCases, get?_nodeWithCases (by decide), hdocument, Option.map_some, walkField,
      if_neg (by decide), hprepared]
  unfold prepare
  split
  · exact hcases _ ((get?_closeComponentSchemas (by decide) _).trans hflat)
  · exact hcases _ hflat

/-- Preparing a document leaves an object an object. -/
theorem exists_object_prepare (options : Options) (fields : Fields) :
    ∃ prepared, prepare options (.object fields) = .object prepared := by
  have hflat : ∃ flat, flattened (.object fields) = .object flat := by
    have hwalked := (walked_flattenCompositions (normalizeDialect (.object fields))).sameKind
    rw [normalizeDialect_object] at hwalked
    rw [flattened, normalizeDialect_object]
    exact hwalked.object_of
  have hcases : ∀ document keywords, ∃ prepared,
      nodeWithCases document (.object keywords) = .object prepared := fun document keywords =>
    ((isWalk_nodeWithCases document).kind (.object keywords)).object_of
  obtain ⟨flat, hflat⟩ := hflat
  cases hclose : options.closeSchemas with
  | false =>
    rw [prepare_open hclose, hflat]
    exact hcases _ _
  | true =>
    rw [prepare_closed hclose, hflat, closeComponentSchemas, mapField_object]
    exact hcases _ _

end ApiContract
