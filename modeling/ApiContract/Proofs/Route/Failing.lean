import ApiContract.Route.Compilation

/-! # Where failures come from

A route is compiled from the parts of an operation one after the other, and the first failure ends it. So
every failure is that of one part: of a definition that cannot be read, of a reference, or of a schema.

* `FailsBy`: an outcome whose failures all have a cause of one kind.
* `Contract.PartFault`, `Contract.OperationFault`, `Contract.PathFault`: what can fail of an operation behind
  its own definition, of an operation, and of a path.
* `Contract.failsBy_compileOperation`, `Contract.exists_pathFault`: nothing else fails. -/

set_option autoImplicit false

namespace ApiContract

/-! ## Failures of one kind -/

section

variable {ε α β : Type} {fault : ε → Prop}

/-- All failures of an outcome are of one kind. -/
def FailsBy (fault : ε → Prop) (outcome : Except ε α) : Prop := ∀ e, outcome = .error e → fault e

theorem failsBy_ok (value : α) : FailsBy fault (.ok value) := fun _ h => by cases h

theorem FailsBy.bind {outcome : Except ε α} {next : α → Except ε β} (h : FailsBy fault outcome)
    (hnext : ∀ value, FailsBy fault (next value)) : FailsBy fault (outcome >>= next) := by
  cases outcome with
  | error e => exact fun other heq => h other (congrArg Except.error (Except.error.inj heq))
  | ok value => exact hnext value

theorem FailsBy.mono {other : ε → Prop} {outcome : Except ε α} (h : FailsBy fault outcome)
    (hother : ∀ e, fault e → other e) : FailsBy other outcome := fun e he => hother e (h e he)

theorem error_of_map_error {outcome : Except ε α} {f : α → β} {e : ε} (h : outcome.map f = .error e) :
    outcome = .error e := by
  cases outcome with
  | error other =>
    cases h
    rfl
  | ok value => cases h

end

theorem exists_of_readDefinition {α : Type} {decode : Json → Decoded α} {location : String} {raw : Json}
    {failure : ContractError} (h : readDefinition decode location raw = .error failure) :
    ∃ e, decode raw = .error e ∧ failure = .invalidDefinition location e.message := by
  unfold readDefinition at h
  cases hraw : decode raw with
  | error e =>
    rw [hraw] at h
    cases h
    exact ⟨e, rfl, rfl⟩
  | ok value =>
    rw [hraw] at h
    cases h

namespace Contract

/-! ## Parts of an operation -/

/-- A failure behind the definition of an operation: of a reference to a component, or of a schema. -/
inductive PartFault (contract : Contract) (failure : ContractError) : Prop where
  | requestBody {reference : String}
    (h : lookupRequestBody contract.components reference = .error failure) : PartFault contract failure
  | response {reference : String} (h : lookupResponse contract.components reference = .error failure) :
    PartFault contract failure
  | parameter {reference : String} (h : lookupParameter contract.components reference = .error failure) :
    PartFault contract failure
  | schema {name : String} {schema : Json} (h : contract.compileSchema name schema = .error failure) :
    PartFault contract failure

section

variable (contract : Contract)

theorem failsBy_compileSchema (name : String) (schema : Json) :
    FailsBy contract.PartFault (contract.compileSchema name schema) := fun _ h => .schema h

theorem failsBy_resolve {α : Type} {lookup : String → Except ContractError α}
    (h : ∀ reference, FailsBy contract.PartFault (lookup reference)) (entry : OrReference α) :
    FailsBy contract.PartFault (entry.resolve lookup) := by
  cases entry with
  | item value => exact failsBy_ok value
  | reference target => exact h target

theorem failsBy_compileRequestBody (base : String) (declared : Option (OrReference RequestBody)) :
    FailsBy contract.PartFault (contract.compileRequestBody base declared) := by
  cases declared with
  | none => exact failsBy_ok none
  | some entry =>
    refine (contract.failsBy_resolve (fun _ _ h => .requestBody h) entry).bind fun body => ?_
    cases body.jsonSchema? with
    | none => exact failsBy_ok none
    | some schema => exact (contract.failsBy_compileSchema _ schema).bind fun _ => failsBy_ok _

theorem failsBy_compileResponses (base : String) (table : Table (OrReference Response)) :
    FailsBy contract.PartFault (contract.compileResponses base table) := by
  induction table with
  | nil => exact failsBy_ok []
  | cons entry rest ih =>
    refine (contract.failsBy_resolve (fun _ _ h => .response h) entry.2).bind fun response => ?_
    cases response.jsonSchema? with
    | none => exact ih
    | some schema =>
      exact (contract.failsBy_compileSchema _ schema).bind fun _ => ih.bind fun _ => failsBy_ok _

theorem failsBy_resolveParameters (entries : List (OrReference Parameter)) :
    FailsBy contract.PartFault (contract.resolveParameters entries) := by
  induction entries with
  | nil => exact failsBy_ok []
  | cons entry rest ih =>
    exact (contract.failsBy_resolve (fun _ _ h => .parameter h) entry).bind fun _ =>
      ih.bind fun _ => failsBy_ok _

theorem failsBy_compileParameters (base : String) (schemas : List (Parameter × Json)) :
    FailsBy contract.PartFault (contract.compileParameters base schemas) := by
  induction schemas with
  | nil => exact failsBy_ok []
  | cons entry rest ih =>
    exact (contract.failsBy_compileSchema _ entry.2).bind fun _ => ih.bind fun _ => failsBy_ok _

end

/-! ## Operations -/

/-- A parameter of a list cannot be read; the place of the first one is a number. -/
def SharedFault (location : String) (place : Nat) (shared : List Json) (failure : ContractError) : Prop :=
  ∃ (i : Nat) (value : Json) (e : DecodeError), shared[i]? = some value ∧
    decodeOrReference decodeParameter value = .error e ∧
      failure = .invalidDefinition (location ++ "/parameters/" ++ naturalText (place + i)) e.message

theorem failsBy_readParameters (location : String) (place : Nat) (shared : List Json) :
    FailsBy (SharedFault location place shared) (readParameters location place shared) := by
  induction shared generalizing place with
  | nil => exact failsBy_ok []
  | cons raw rest ih =>
    refine FailsBy.bind (fun failure h => ?_) fun parameter =>
      ((ih (place + 1)).mono fun failure h => ?_).bind fun others => failsBy_ok _
    · obtain ⟨e, he, rfl⟩ := exists_of_readDefinition h
      exact ⟨0, raw, e, rfl, he, rfl⟩
    · obtain ⟨i, value, e, hvalue, he, rfl⟩ := h
      exact ⟨i + 1, value, e, hvalue, he, by rw [Nat.add_assoc, Nat.add_comm 1 i]⟩

/-- A failure of an operation: of its own definition, of a parameter that it shares, or of a part. -/
inductive OperationFault (contract : Contract) (path : String) (method : Method) (raw : Json)
    (shared : List Json) : ContractError → Prop where
  | definition {e : DecodeError} (h : decodeOperation raw = .error e) :
    OperationFault contract path method raw shared
      (.invalidDefinition (pathLocation path ++ "/" ++ method.name) e.message)
  | shared {failure : ContractError} (h : SharedFault (pathLocation path) 0 shared failure) :
    OperationFault contract path method raw shared failure
  | part {failure : ContractError} (h : contract.PartFault failure) :
    OperationFault contract path method raw shared failure

theorem failsBy_compileOperation (contract : Contract) (path : String) (method : Method) (raw : Json)
    (shared : List Json) : FailsBy (contract.OperationFault path method raw shared)
      (contract.compileOperation path method raw shared) := by
  have hpart : ∀ failure, contract.PartFault failure →
      contract.OperationFault path method raw shared failure := fun _ h => .part h
  have hdefinition : FailsBy (contract.OperationFault path method raw shared)
      (readDefinition decodeOperation (pathLocation path ++ "/" ++ method.name) raw) := by
    intro failure h
    obtain ⟨e, he, rfl⟩ := exists_of_readDefinition h
    exact .definition he
  exact hdefinition.bind fun operation =>
    ((failsBy_readParameters _ 0 shared).mono fun _ h => .shared h).bind fun _ =>
    ((contract.failsBy_compileRequestBody _ operation.requestBody).mono hpart).bind fun _ =>
    ((contract.failsBy_compileResponses _ operation.responses).mono hpart).bind fun _ =>
    ((contract.failsBy_resolveParameters _).mono hpart).bind fun _ =>
    ((contract.failsBy_resolveParameters operation.parameters).mono hpart).bind fun _ =>
    ((contract.failsBy_compileParameters _ _).mono hpart).bind fun _ => failsBy_ok _

/-! ## Paths -/

/-- A failure of a path: of its item, or of an operation that the item declares. -/
inductive PathFault (contract : Contract) (path : String) (raw : Json) : ContractError → Prop where
  | missing (h : raw.isNull = true) : PathFault contract path raw (.missingPathDetail path)
  | item {e : DecodeError} (h : decodePathItem raw = .error e) :
    PathFault contract path raw (.invalidDefinition (pathLocation path) e.message)
  | operation {item : PathItem} {method : Method} {operation : Json} {failure : ContractError}
    (hread : decodePathItem raw = .ok item) (hdeclared : (method, operation) ∈ item.operations)
    (h : contract.OperationFault path method operation item.parameters failure) :
    PathFault contract path raw failure

theorem pathFault_of_readPathItem {contract : Contract} {path : String} {raw : Json}
    {failure : ContractError} (h : readPathItem path raw = .error failure) :
    contract.PathFault path raw failure := by
  unfold readPathItem at h
  split at h
  · rename_i hnull
    cases h
    exact .missing hnull
  · obtain ⟨e, he, rfl⟩ := exists_of_readDefinition h
    exact .item he

theorem decodePathItem_of_readPathItem {path : String} {raw : Json} {item : PathItem}
    (h : readPathItem path raw = .ok item) : decodePathItem raw = .ok item := by
  unfold readPathItem readDefinition at h
  split at h
  · cases h
  · cases hraw : decodePathItem raw with
    | error e =>
      rw [hraw] at h
      cases h
    | ok read =>
      rw [hraw] at h
      cases h
      rfl

/-- Every failure among the declarations of a contract is that of one of its paths. -/
theorem exists_pathFault {contract : Contract} {failure : ContractError}
    (h : .error failure ∈ contract.declarations) :
    ∃ path raw, (path, raw) ∈ contract.paths ∧ contract.PathFault path raw failure := by
  obtain ⟨⟨path, raw⟩, hpath, hfailure⟩ := List.mem_flatMap.1 h
  refine ⟨path, raw, hpath, ?_⟩
  unfold pathDeclarations at hfailure
  cases hread : readPathItem path raw with
  | error e =>
    rw [hread] at hfailure
    cases List.mem_singleton.1 hfailure
    exact pathFault_of_readPathItem hread
  | ok item =>
    rw [hread] at hfailure
    obtain ⟨⟨method, operation⟩, hdeclared, hfails⟩ := List.mem_map.1 hfailure
    exact .operation (decodePathItem_of_readPathItem hread) hdeclared
      (contract.failsBy_compileOperation _ _ _ _ _ (error_of_map_error hfails))

/-! ## Documents -/

/-- A contract is what the prepared document reads as. -/
theorem exists_of_ofDocument {options : Options} {raw : Json} {contract : Contract}
    (h : ofDocument options raw = .ok contract) :
    ∃ read, decodeDocument (prepare options raw) = .ok read ∧
      contract = ⟨prepare options raw, read.paths, read.components, options.coercion⟩ := by
  unfold ofDocument at h
  cases hread : decodeDocument (prepare options raw) with
  | error e =>
    simp only [hread] at h
    cases h
  | ok read =>
    simp only [hread] at h
    cases h
    exact ⟨read, rfl, rfl⟩

theorem invalidDocument_of_ofDocument {options : Options} {raw : Json} {failure : ContractError}
    (h : ofDocument options raw = .error failure) : ∃ reason, failure = .invalidDocument reason := by
  unfold ofDocument at h
  cases hread : decodeDocument (prepare options raw) with
  | error e =>
    simp only [hread] at h
    cases h
    exact ⟨e.message, rfl⟩
  | ok read =>
    simp only [hread] at h
    cases h

end Contract

end ApiContract
