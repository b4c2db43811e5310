import ApiContract.Proofs.Route.Status

/-! # Statuses that are names

Two statuses are treated alike by all walks exactly if no contract can tell them apart. Two responses are
enough for the contracts that do: one that is a composition, which is merged only where it is no data, and
one with alternatives in its content, which become cases only where the last walk enters.

* `prepare_composed`, `prepare_alternatives`: what becomes of the two responses.
* `isOk_composed`, `isOk_alternatives`: which of them can be compiled.
* `treatedAlike_iff_checkedAlike`: the two directions together. -/

set_option autoImplicit false

namespace ApiContract

/-! ## Objects of one field -/

theorem IsWalk.single {walk : Json → Json} {passes : String → Bool} {finish : Fields → Fields}
    (hwalk : IsWalk walk passes finish) (key : String) (fields : Fields) :
    walk (.object [(key, .object fields)]) =
      .object [(key, walkField walk passes key (.object fields))] := by
  have hobject : ∃ results, walkField walk passes key (.object fields) = .object results := by
    unfold walkField
    split
    · exact ⟨fields, rfl⟩
    · exact ⟨_, hwalk.object fields⟩
  obtain ⟨results, hresults⟩ := hobject
  rw [hwalk.object, List.map_singleton, hresults, hwalk.map _ (.single key results)]

theorem flattenNode?_single (document : Json) (depth : Nat) (followed : List String) (key : String)
    (fields : Fields) : flattenNode? document (depth + 1) followed (.object [(key, .object fields)]) =
      (flattenField? document depth followed key (.object fields)).map fun result =>
        .object [(key, result)] := by
  rw [flattenNode?_object, composedFields?_of_map (.single key fields), Option.bind_some,
    Fields.mapValues?_cons]
  cases flattenField? document depth followed key (.object fields) <;> rfl

/-! ## A contract with one response -/

/-- A value below keys, each the only one of its object. -/
def below : List String → Json → Json
  | [], value => value
  | key :: keys, value => .object [(key, below keys value)]

/-- The way to the responses of an operation. -/
def responseKeys : List String := ["paths", "/a", "get", "responses"]

/-- A contract with one operation, which declares no response. -/
def silentContract : Json := below responseKeys (.object [])

/-- The contract with a response under a status. -/
def respondingContract (status : String) (response : Fields) : Json :=
  below responseKeys (.object [(status, .object response)])

theorem declareResponse_silentContract (status : String) (response : Fields) :
    declareResponse "/a" .get status (.object response) silentContract =
      respondingContract status response := rfl

def silentPlace : ResponsePlace silentContract "/a" .get := ⟨_, _, _, _, rfl, rfl, rfl, rfl⟩

theorem silentPlace_takes (first second : String) (response : Fields) :
    silentPlace.Takes first second response where
  first_free := rfl
  second_free := rfl
  paths := .single "/a" _
  apart _ hentry hne := absurd (congrArg Prod.fst (List.mem_singleton.1 hentry)) hne
  left := .single first response
  right := .single second response

/-! ## Its preparation -/

theorem below_object (keys : List String) (fields : Fields) :
    ∃ given, below keys (.object fields) = .object given := by
  cases keys with
  | nil => exact ⟨fields, rfl⟩
  | cons key rest => exact ⟨_, rfl⟩

theorem IsWalk.below {walk : Json → Json} {passes : String → Bool} {finish : Fields → Fields}
    (hwalk : IsWalk walk passes finish) {keys : List String} (hkeys : ∀ key ∈ keys, passes key = false)
    (fields : Fields) : walk (below keys (.object fields)) = below keys (walk (.object fields)) := by
  induction keys with
  | nil => rfl
  | cons key rest ih =>
    obtain ⟨hkey, hrest⟩ := List.forall_mem_cons.1 hkeys
    obtain ⟨given, hgiven⟩ := below_object rest fields
    rw [ApiContract.below, ApiContract.below, ← ih hrest, hgiven, hwalk.single, walkField, hkey,
      if_neg Bool.false_ne_true]

theorem flattenNode?_below {document : Json} {followed : List String} (keys : List String)
    (hkeys : ∀ key ∈ keys, isDataKeyword key = false) {depth : Nat} {fields : Fields} {flat : Json}
    (h : flattenNode? document depth followed (.object fields) = some flat) :
    flattenNode? document (depth + keys.length) followed (below keys (.object fields)) =
      some (below keys flat) := by
  induction keys with
  | nil => exact h
  | cons key rest ih =>
    obtain ⟨hkey, hrest⟩ := List.forall_mem_cons.1 hkeys
    have hinner := ih hrest
    obtain ⟨given, hgiven⟩ := below_object rest fields
    rw [below, List.length_cons, ← Nat.add_assoc]
    rw [hgiven] at hinner ⊢
    rw [flattenNode?_single, flattenField?, hkey, if_neg Bool.false_ne_true, hinner]
    rfl

theorem exists_flattenDepth (document : Json) : ∃ depth, flattenDepth document = depth + 13 := by
  have hpow : 2 ^ 8 ≤ flattenDepth document := Nat.pow_le_pow_left (Nat.le_add_left 2 _) 8
  exact ⟨flattenDepth document - 13, (Nat.sub_add_cancel (Nat.le_trans (by decide) hpow)).symm⟩

theorem prepare_respondingContract {options : Options} {status : String} {response result : Fields}
    (flat : Fields) (hnormal : normalizeDialect (.object response) = .object response)
    (hflat : ∀ document depth, flattenField? document (depth + 8) [] status (.object response) =
      some (.object flat))
    (hcases : ∀ document, walkField (nodeWithCases document) passesCases status (.object flat) =
      .object result) :
    prepare options (respondingContract status response) = respondingContract status result := by
  have hdialect : normalizeDialect (respondingContract status response) =
      respondingContract status response := by
    rw [respondingContract, isWalk_normalizeDialect.below (by decide), isWalk_normalizeDialect.single,
      walkField, hnormal, ite_self]
  have hcompositions : flattenCompositions (respondingContract status response) =
      respondingContract status flat := by
    obtain ⟨depth, hdepth⟩ := exists_flattenDepth (respondingContract status response)
    have hentry : flattenNode? (respondingContract status response) (depth + 9) []
        (.object [(status, .object response)]) = some (.object [(status, .object flat)]) := by
      rw [flattenNode?_single, hflat]
      rfl
    have hnode := flattenNode?_below responseKeys (by decide) hentry
    unfold flattenCompositions
    rw [hdepth]
    exact congrArg (fun node => Option.getD node _) hnode
  have hclosed : closeComponentSchemas (respondingContract status flat) =
      respondingContract status flat := rfl
  unfold prepare
  simp only [hdialect, hcompositions, hclosed, ite_self]
  rw [introduceCases, respondingContract, (isWalk_nodeWithCases _).below (by decide),
    (isWalk_nodeWithCases _).single]
  rw [← respondingContract, hcases]
  rfl

/-! ## A composition -/

/-- A response whose content is in a fragment, and is none. -/
def composedResponse : Fields := [("allOf", .array [.object [("content", .number (.int 5))]])]

/-- The response with the fragment merged. -/
def mergedResponse : Fields := [("content", .number (.int 5))]

section

variable (options : Options) (status : String)

theorem prepare_composed (h : isDataKeyword status = true) :
    prepare options (respondingContract status composedResponse) =
      respondingContract status composedResponse := by
  refine prepare_respondingContract composedResponse rfl (fun document depth => ?_) fun document => ?_
  · rw [flattenField?, h, if_pos rfl]
  · rw [walkField]
    exact ite_self _

theorem prepare_composed_name (h : isDataKeyword status = false) :
    prepare options (respondingContract status composedResponse) =
      respondingContract status mergedResponse := by
  refine prepare_respondingContract mergedResponse rfl (fun document depth => ?_) fun document => ?_
  · rw [flattenField?, h, if_neg Bool.false_ne_true]
    rfl
  · rw [walkField]
    exact ite_self _

/-- The composition is compiled only where it is data. -/
theorem isOk_composed :
    (Validator.ofDocument .defaults (respondingContract status composedResponse)).isOk =
      isDataKeyword status := by
  unfold Validator.ofDocument Registry.compile Contract.ofDocument
  cases h : isDataKeyword status with
  | true =>
    rw [prepare_composed _ _ h]
    rfl
  | false =>
    rw [prepare_composed_name _ _ h]
    rfl

end

/-! ## Alternatives -/

/-- A schema of objects with the tag `a`. -/
def taggedSchema : Json :=
  .object [("properties", .object [("kind", .object [("const", .string "a")])])]

/-- A response whose content looks like a schema with alternatives. -/
def alternativesResponse : Fields :=
  [("content", .object
    [("discriminator", .object [("propertyName", .string "kind")]),
     ("oneOf", .array [taggedSchema, taggedSchema])])]

/-- The response with cases for the alternatives. -/
def casesResponse : Fields :=
  [("content", .object
    [("allOf", .array [caseGuard "kind" "a" taggedSchema]),
     ("discriminator", .object [("propertyName", .string "kind")]),
     (casesKeyword, .object [("a", taggedSchema)])])]

section

variable (options : Options) (status : String)

theorem flattenField?_alternatives (document : Json) (depth : Nat) :
    flattenField? document (depth + 8) [] status (.object alternativesResponse) =
      some (.object alternativesResponse) := by
  rw [flattenField?]
  exact ite_self _

theorem prepare_alternatives (h : passesCases status = true) :
    prepare options (respondingContract status alternativesResponse) =
      respondingContract status alternativesResponse := by
  refine prepare_respondingContract _ rfl (flattenField?_alternatives status) fun document => ?_
  rw [walkField, h, if_pos rfl]

theorem prepare_alternatives_name (h : passesCases status = false) :
    prepare options (respondingContract status alternativesResponse) =
      respondingContract status casesResponse := by
  refine prepare_respondingContract _ rfl (flattenField?_alternatives status) fun document => ?_
  rw [walkField, h, if_neg Bool.false_ne_true]
  rfl

/-- The alternatives are compiled only where they become cases. -/
theorem isOk_alternatives :
    (Validator.ofDocument .defaults (respondingContract status alternativesResponse)).isOk =
      !passesCases status := by
  unfold Validator.ofDocument Registry.compile Contract.ofDocument
  cases h : passesCases status with
  | true =>
    rw [prepare_alternatives _ _ h]
    rfl
  | false =>
    rw [prepare_alternatives_name _ _ h]
    rfl

end

/-! ## Both directions -/

theorem CheckedAlike.isOk_eq {first second : String} {response : Fields}
    (h : CheckedAlike .defaults silentContract "/a" .get first second response) :
    (Validator.ofDocument .defaults (respondingContract first response)).isOk =
      (Validator.ofDocument .defaults (respondingContract second response)).isOk := by
  rw [CheckedAlike, declareResponse_silentContract, declareResponse_silentContract] at h
  generalize Validator.ofDocument .defaults (respondingContract first response) = one at h ⊢
  generalize Validator.ofDocument .defaults (respondingContract second response) = another at h ⊢
  cases h <;> rfl

theorem refersOnly_of_allReferences {p : String → Prop} {value : Json} (h : value.allReferences = []) :
    RefersOnly p value := by
  intro reference hreference
  rw [h] at hreference
  cases hreference

/-- The statuses that a response may be declared under alike are those that the walks treat alike. -/
theorem treatedAlike_iff_checkedAlike (first second : String) :
    TreatedAlike first second ↔
      ∀ (options : Options) (contract : Json) (path : String) (method : Method)
        (place : ResponsePlace contract path method) (response : Fields), contract.ordered = true →
        RefersOnly (LeadsElsewhere "paths") contract →
        RefersOnly (LeadsElsewhere "paths") (.object response) → place.Takes first second response →
          CheckedAlike options contract path method first second response := by
  constructor
  · intro halike options contract path method place response ho hcontract hresponse htakes
    exact declareResponse_checkedAlike halike ho htakes hcontract hresponse
  · intro hall
    have hsilent : ∀ response : Fields, (Json.object response).allReferences = [] →
        (Validator.ofDocument .defaults (respondingContract first response)).isOk =
          (Validator.ofDocument .defaults (respondingContract second response)).isOk := by
      intro response hresponse
      refine (hall .defaults silentContract "/a" .get silentPlace response ?_ ?_ ?_ ?_).isOk_eq
      · decide +kernel
      · exact refersOnly_of_allReferences rfl
      · exact refersOnly_of_allReferences hresponse
      · exact silentPlace_takes first second response
    -- the first response tells data from names, the second one the table of cases from other names
    have hdata := hsilent composedResponse rfl
    have hcases := hsilent alternativesResponse rfl
    rw [isOk_composed, isOk_composed] at hdata
    rw [isOk_alternatives, isOk_alternatives] at hcases
    exact ⟨hdata, Bool.not_inj hcases⟩

/-- A response is refused under 200 and compiled as the default one. -/
theorem composedResponse_told_apart :
    silentContract.ordered = true ∧ RefersOnly (LeadsElsewhere "paths") silentContract ∧
      RefersOnly (LeadsElsewhere "paths") (.object composedResponse) ∧
      silentPlace.Takes "200" "default" composedResponse ∧
      ¬ CheckedAlike .defaults silentContract "/a" .get "200" "default" composedResponse := by
  refine ⟨by decide +kernel, refersOnly_of_allReferences rfl, refersOnly_of_allReferences rfl,
    silentPlace_takes "200" "default" composedResponse, fun h => ?_⟩
  have hboth := h.isOk_eq
  rw [isOk_composed, isOk_composed] at hboth
  exact absurd hboth (by decide)

end ApiContract
