import ApiContract.Proofs.Definition.Records
import ApiContract.Proofs.Preparation.Named
import ApiContract.Proofs.Route.Declaring
import ApiContract.Proofs.Route.Failing
import ApiContract.Proofs.Route.Separation

/-! # Strict and lenient compilation

Strict compilation stops at the first failure, lenient compilation goes on behind it. Both go through the
same paths and methods, so they agree where nothing fails, and the lenient registry is put together from
the operations that can be compiled and from nothing else.

* `SparesDocument`: what is compiled of an operation never blames the document as a whole.
* `Contract.FailsFirst`: the first failure in the order of paths and methods.
* `Contract.compiled`: the declarations of the operations that can be compiled.
* `Registry.ComesFrom`: every part of every entry was compiled from an operation of the key.
* `Registry.compile_strict_lenient`: how the two outcomes for a document are related. -/

set_option autoImplicit false

namespace ApiContract

/-! ## Failures of the document as a whole -/

section

variable {α : Type}

/-- An outcome that does not blame the document as a whole. -/
def SparesDocument (outcome : Except ContractError α) : Prop :=
  ∀ reason, outcome ≠ .error (.invalidDocument reason)

theorem sparesDocument_ok (value : α) : SparesDocument (.ok value) := fun _ h => by cases h

theorem sparesDocument_error {failure : ContractError}
    (h : ∀ reason, failure ≠ .invalidDocument reason) :
    SparesDocument (.error failure : Except ContractError α) :=
  fun reason heq => h reason (Except.error.inj heq)

theorem sparesDocument_lookupIn (bucket : Bucket) (entries : Components → Table (OrReference α))
    (components : Option Components) (reference : String) :
    SparesDocument (lookupIn bucket entries components reference) := by
  unfold lookupIn
  split
  · exact sparesDocument_error (by simp)
  · split
    · exact sparesDocument_error (by simp)
    · split
      · exact sparesDocument_error (by simp)
      · split
        · rename_i entry _
          cases entry with
          | item value => exact sparesDocument_ok value
          | reference target => exact sparesDocument_error (by simp)
        · split <;> exact sparesDocument_error (by simp)

end

namespace Contract

theorem sparesDocument_compileSchema (contract : Contract) (name : String) (schema : Json) :
    SparesDocument (contract.compileSchema name schema) := by
  unfold compileSchema CompiledSchema.compile
  dsimp only
  split
  · exact sparesDocument_error (by simp)
  · exact sparesDocument_ok _

section

variable {contract : Contract} {failure : ContractError} {reason : String}

theorem PartFault.ne_invalidDocument (h : contract.PartFault failure) :
    failure ≠ .invalidDocument reason := by
  rintro rfl
  cases h with
  | requestBody h => exact sparesDocument_lookupIn _ _ _ _ reason h
  | response h => exact sparesDocument_lookupIn _ _ _ _ reason h
  | parameter h => exact sparesDocument_lookupIn _ _ _ _ reason h
  | schema h => exact contract.sparesDocument_compileSchema _ _ reason h

theorem PathFault.ne_invalidDocument {path : String} {raw : Json}
    (h : contract.PathFault path raw failure) : failure ≠ .invalidDocument reason := by
  cases h with
  | missing => simp
  | item => simp
  | operation _ _ h =>
    cases h with
    | definition => simp
    | shared h =>
      obtain ⟨i, value, e, -, -, rfl⟩ := h
      simp
    | part h => exact h.ne_invalidDocument

theorem sparesDocument_declarations {outcome : Except ContractError (RouteKey × Route)}
    (h : outcome ∈ contract.declarations) : SparesDocument outcome := by
  rintro reason rfl
  obtain ⟨path, raw, -, hfault⟩ := exists_pathFault h
  exact hfault.ne_invalidDocument rfl

end

end Contract

/-! ## First failures -/

section

variable {ε α γ : Type}

theorem allResults_append (front back : List (Except ε α)) :
    allResults (front ++ back) =
      (allResults front).bind fun results => (allResults back).map (results ++ ·) := by
  induction front with
  | nil => cases hback : allResults back <;> simp [allResults, Except.bind, Except.map, hback]
  | cons outcome rest ih =>
    cases outcome with
    | error e => rfl
    | ok value =>
      rw [List.cons_append, allResults, allResults, ih]
      cases allResults rest with
      | error e => rfl
      | ok results => cases allResults back <;> rfl

theorem mem_of_allResults {outcomes : List (Except ε α)} {e : ε} (h : allResults outcomes = .error e) :
    .error e ∈ outcomes := by
  induction outcomes with
  | nil => cases h
  | cons outcome rest ih =>
    cases outcome with
    | error other =>
      cases h
      exact List.mem_cons_self ..
    | ok value =>
      rw [allResults] at h
      cases hrest : allResults rest with
      | error other =>
        rw [hrest] at h
        cases h
        exact List.mem_cons_of_mem _ (ih hrest)
      | ok results =>
        rw [hrest] at h
        cases h

/-- The first failure of results that are put together: all results of the members before it are there,
and it is the first failure among those of its own member. -/
theorem allResults_flatMap_error {members : List γ} {outcomes : γ → List (Except ε α)} {e : ε}
    (h : allResults (members.flatMap outcomes) = .error e) :
    ∃ before member after, members = before ++ member :: after ∧
      (∀ earlier ∈ before, ∃ results, allResults (outcomes earlier) = .ok results) ∧
      allResults (outcomes member) = .error e := by
  induction members with
  | nil => cases h
  | cons member rest ih =>
    rw [List.flatMap_cons, allResults_append] at h
    cases hmember : allResults (outcomes member) with
    | error other =>
      rw [hmember] at h
      cases h
      exact ⟨[], member, rest, rfl, (fun _ hmem => by cases hmem), hmember⟩
    | ok results =>
      cases hrest : allResults (rest.flatMap outcomes) with
      | ok others =>
        rw [hmember, hrest] at h
        cases h
      | error other =>
        rw [hmember, hrest] at h
        cases h
        obtain ⟨before, found, after, rfl, hbefore, hfound⟩ := ih hrest
        refine ⟨member :: before, found, after, rfl, ?_, hfound⟩
        rw [List.forall_mem_cons]
        exact ⟨⟨results, hmember⟩, hbefore⟩

theorem allResults_flatMap_ok {members : List γ} {outcomes : γ → List (Except ε α)} {results : List α}
    (h : allResults (members.flatMap outcomes) = .ok results) {member : γ} (hmember : member ∈ members) :
    ∃ own, allResults (outcomes member) = .ok own := by
  cases hown : allResults (outcomes member) with
  | ok own => exact ⟨own, rfl⟩
  | error e =>
    have hfailure : .error e ∈ members.flatMap outcomes :=
      List.mem_flatMap.2 ⟨member, hmember, mem_of_allResults hown⟩
    rw [allResults_eq_ok.1 h] at hfailure
    obtain ⟨value, -, hvalue⟩ := List.mem_map.1 hfailure
    cases hvalue

theorem allResults_toList_ok {outcome : Option (Except ε α)} {results : List α}
    (h : allResults outcome.toList = .ok results) : ∀ own ∈ outcome, ∃ value, own = .ok value := by
  intro own hown
  cases hown
  cases own with
  | error e => cases h
  | ok value => exact ⟨value, rfl⟩

theorem allResults_toList_error {outcome : Option (Except ε α)} {e : ε}
    (h : allResults outcome.toList = .error e) : outcome = some (.error e) := by
  cases outcome with
  | none => cases h
  | some own =>
    cases own with
    | error other =>
      cases h
      rfl
    | ok value => cases h

end

namespace Contract

/-- An operation of a path item, if it declares one for the method, can be compiled. -/
def CompilesMethod (contract : Contract) (path : String) (item : PathItem) (method : Method) : Prop :=
  ∀ raw, item.operation method = some raw →
    ∃ route, contract.compileOperation path method raw item.parameters = .ok route

/-- A path item can be read, and each of its operations can be compiled. -/
def CompilesPath (contract : Contract) (path : String) (raw : Json) : Prop :=
  ∃ item, readPathItem path raw = .ok item ∧ ∀ method, contract.CompilesMethod path item method

/-- The first failure of a path: that of its item, or that of the first method, in the order of the
methods, whose operation cannot be compiled. -/
inductive PathFails (contract : Contract) (path : String) (raw : Json) : ContractError → Prop where
  | item {failure : ContractError} (h : readPathItem path raw = .error failure) :
      PathFails contract path raw failure
  | operation {failure : ContractError} (item : PathItem) (earlier later : List Method) (method : Method)
      (operation : Json) (hread : readPathItem path raw = .ok item)
      (hmethods : Method.all = earlier ++ method :: later)
      (hearlier : ∀ other ∈ earlier, contract.CompilesMethod path item other)
      (hdeclared : item.operation method = some operation)
      (hfails : contract.compileOperation path method operation item.parameters = .error failure) :
      PathFails contract path raw failure

/-- The first failure of a contract: that of the first path, in the order of the paths, that fails. -/
def FailsFirst (contract : Contract) (failure : ContractError) : Prop :=
  ∃ before path raw after, contract.paths = before ++ (path, raw) :: after ∧
    (∀ earlier ∈ before, contract.CompilesPath earlier.1 earlier.2) ∧
    contract.PathFails path raw failure

section

variable {contract : Contract} {path : String} {raw : Json} {item : PathItem}

theorem pathDeclarations_eq_flatMap (h : readPathItem path raw = .ok item) :
    contract.pathDeclarations path raw = Method.all.flatMap fun method =>
      ((item.operation method).map (contract.declaration path item.parameters method)).toList := by
  rw [pathDeclarations_of_read h, List.filterMap_eq_flatMap_toList]

theorem exists_of_declaration {method : Method} {operation : Json} {shared : List Json}
    {declared : RouteKey × Route}
    (h : contract.declaration path shared method operation = .ok declared) :
    ∃ route, contract.compileOperation path method operation shared = .ok route := by
  cases hroute : contract.compileOperation path method operation shared with
  | error e =>
    rw [declaration, hroute] at h
    cases h
  | ok route => exact ⟨route, rfl⟩

theorem error_of_declaration {method : Method} {operation : Json} {shared : List Json}
    {failure : ContractError}
    (h : contract.declaration path shared method operation = .error failure) :
    contract.compileOperation path method operation shared = .error failure := by
  cases hroute : contract.compileOperation path method operation shared with
  | error e =>
    rw [declaration, hroute] at h
    cases h
    rfl
  | ok route =>
    rw [declaration, hroute] at h
    cases h

theorem compilesMethod_of_allResults {method : Method} {results : List (RouteKey × Route)}
    (h : allResults ((item.operation method).map
      (contract.declaration path item.parameters method)).toList = .ok results) :
    contract.CompilesMethod path item method := by
  intro operation hoperation
  obtain ⟨declared, hdeclared⟩ := allResults_toList_ok h _ (by rw [hoperation]; rfl)
  exact exists_of_declaration hdeclared

theorem compilesPath_of_allResults {results : List (RouteKey × Route)}
    (h : allResults (contract.pathDeclarations path raw) = .ok results) :
    contract.CompilesPath path raw := by
  cases hread : readPathItem path raw with
  | error e =>
    rw [pathDeclarations, hread] at h
    cases h
  | ok item =>
    rw [pathDeclarations_eq_flatMap hread] at h
    refine ⟨item, hread, fun method => ?_⟩
    have hmethod : method ∈ Method.all := by cases method <;> decide
    obtain ⟨own, hown⟩ := allResults_flatMap_ok h hmethod
    exact compilesMethod_of_allResults hown

theorem pathFails_of_allResults {failure : ContractError}
    (h : allResults (contract.pathDeclarations path raw) = .error failure) :
    contract.PathFails path raw failure := by
  cases hread : readPathItem path raw with
  | error e =>
    rw [pathDeclarations, hread] at h
    cases h
    exact .item hread
  | ok item =>
    rw [pathDeclarations_eq_flatMap hread] at h
    obtain ⟨earlier, method, later, hmethods, hearlier, hmethod⟩ := allResults_flatMap_error h
    obtain ⟨operation, hdeclared, hfails⟩ := Option.map_eq_some_iff.1 (allResults_toList_error hmethod)
    refine .operation item earlier later method operation hread hmethods (fun other hother => ?_)
      hdeclared (error_of_declaration hfails)
    obtain ⟨results, hresults⟩ := hearlier other hother
    exact compilesMethod_of_allResults hresults

/-- Where not all operations have results, what is reported is the first failure. -/
theorem failsFirst_of_allResults {failure : ContractError}
    (h : allResults contract.declarations = .error failure) : contract.FailsFirst failure := by
  obtain ⟨before, entry, after, hpaths, hbefore, hentry⟩ := allResults_flatMap_error h
  refine ⟨before, entry.1, entry.2, after, hpaths, fun earlier hearlier => ?_,
    pathFails_of_allResults hentry⟩
  obtain ⟨results, hresults⟩ := hbefore earlier hearlier
  exact compilesPath_of_allResults hresults

end

end Contract

/-! ## The order of paths -/

/-- A document in the order of its keys has its paths in their order. -/
theorem ordered_paths {value : Json} {document : Document} (hordered : value.ordered = true)
    (h : decodeDocument value = .ok document) : document.paths.Ordered := by
  refine decodeRecord_keeps (fun read => read.paths.Ordered) hordered ?_ Fields.ordered_nil h
  intro field hfield value a b hvalue ha hb
  rw [List.mem_cons, List.mem_cons, List.mem_singleton] at hfield
  rcases hfield with rfl | rfl | rfl
  · obtain ⟨version, -, rfl⟩ := Field.exists_of_defaulted hb
    exact ha
  · obtain ⟨paths, hpaths, rfl⟩ := Field.exists_of_defaulted hb
    cases value with
    | object fields =>
      rw [decodeTable_any] at hpaths
      cases hpaths
      exact (Json.ordered_object.1 hvalue).1
    | _ => cases hpaths
  · obtain ⟨components, -, rfl⟩ := Field.exists_of_defaulted hb
    exact ha

theorem Contract.ordered_paths {options : Options} {raw : Json} {contract : Contract}
    (hraw : raw.ordered = true) (h : Contract.ofDocument options raw = .ok contract) :
    contract.paths.Ordered := by
  obtain ⟨document, hread, rfl⟩ := Contract.exists_of_ofDocument h
  exact ApiContract.ordered_paths (ordered_prepare options hraw) hread

/-! ## What is committed -/

/-- The declarations of the operations that can be compiled, in the order of the operations. -/
def Contract.compiled (contract : Contract) : List (RouteKey × Route) :=
  contract.operations.filterMap fun operation =>
    (contract.routeOf operation).toOption.map fun route => (operation.key, route)

/-- An operation of a key can be compiled, to a route. -/
def Contract.Yields (contract : Contract) (key : RouteKey) (route : Route) : Prop :=
  ∃ operation ∈ contract.operations, operation.key = key ∧ contract.routeOf operation = .ok route

/-- Every part of an entry is that of a route that an operation of the key was compiled to. -/
structure Route.ComesFrom (entry : Route) (contract : Contract) (key : RouteKey) : Prop where
  path : ∃ route, contract.Yields key route ∧ entry.path = route.path
  requestBody : ∃ route, contract.Yields key route ∧ entry.requestBody = route.requestBody
  responses : ∃ route, contract.Yields key route ∧ entry.responses = route.responses
  parameters : ∃ route, contract.Yields key route ∧ entry.parameters = route.parameters
  coercer : ∃ route, contract.Yields key route ∧ entry.coercer = route.coercer

section

variable {contract : Contract}

theorem Contract.someResults_declarations (contract : Contract) :
    someResults contract.declarations = contract.compiled := by
  rw [someResults, Contract.declarations, Contract.compiled, Contract.operations,
    List.filterMap_flatMap, List.filterMap_flatMap]
  refine congrArg (fun f => contract.paths.flatMap f) (funext fun entry => ?_)
  rw [Contract.pathDeclarations, Contract.operationsOfPath]
  cases readPathItem entry.1 entry.2 with
  | error e => rfl
  | ok item =>
    simp only [List.filterMap_map]
    refine List.filterMap_congr fun operation _ => ?_
    rw [Function.comp_apply, Function.comp_apply, Contract.routeOf]
    cases contract.compileOperation entry.1 operation.1 operation.2 item.parameters <;> rfl

theorem Contract.mem_compiled {key : RouteKey} {route : Route} :
    (key, route) ∈ contract.compiled ↔ contract.Yields key route := by
  rw [Contract.compiled, List.mem_filterMap]
  refine exists_congr fun operation => and_congr_right fun _ => ?_
  cases contract.routeOf operation with
  | error e => simp [Except.toOption]
  | ok own => simp [Except.toOption]

/-- A part that a later declaration has from itself or from the earlier one is, in routes put over each
other, that of one of them. -/
theorem Registry.layered_part {α : Type} {part : Route → α}
    (hpart : ∀ later earlier : Route,
      part (later.over earlier) = part later ∨ part (later.over earlier) = part earlier)
    {routes : List Route} {entry : Route} (h : layered routes = some entry) :
    ∃ route ∈ routes, part entry = part route := by
  induction routes generalizing entry with
  | nil => cases h
  | cons route earlier ih =>
    rw [layered] at h
    cases hknown : layered earlier with
    | none =>
      rw [hknown] at h
      cases h
      exact ⟨route, List.mem_cons_self .., rfl⟩
    | some known =>
      rw [hknown] at h
      cases h
      rcases hpart route known with hlater | hearlier
      · exact ⟨route, List.mem_cons_self .., hlater⟩
      · obtain ⟨other, hother, hsame⟩ := ih hknown
        exact ⟨other, List.mem_cons_of_mem _ hother, hearlier.trans hsame⟩

theorem Registry.comesFrom_compiled {key : RouteKey} {entry : Route}
    (h : (ofDeclarations contract.compiled).get? key = some entry) : entry.ComesFrom contract key := by
  rw [get?_ofDeclarations] at h
  have hyields : ∀ route ∈ declaredUnder key contract.compiled, contract.Yields key route :=
    fun route hroute => Contract.mem_compiled.1 (mem_declaredUnder.1 hroute)
  have hfrom : ∀ {α : Type} (part : Route → α), (∀ later earlier : Route,
      part (later.over earlier) = part later ∨ part (later.over earlier) = part earlier) →
        ∃ route, contract.Yields key route ∧ part entry = part route := by
    intro α part hpart
    obtain ⟨route, hroute, hsame⟩ := layered_part hpart h
    exact ⟨route, hyields route hroute, hsame⟩
  refine ⟨hfrom (·.path) fun _ _ => .inl rfl, hfrom (·.requestBody) fun later earlier => ?_,
    hfrom (·.responses) fun later earlier => ?_, hfrom (·.parameters) fun later earlier => ?_,
    hfrom (·.coercer) fun later earlier => ?_⟩
  · simp only [Route.over]
    cases later.requestBody <;> simp
  · simp only [Route.over]
    split <;> simp
  · simp only [Route.over]
    split <;> simp
  · simp only [Route.over]
    cases later.coercer <;> simp

end

/-! ## Both modes -/

namespace Registry

section

variable {options : Options} {raw : Json} {contract : Contract}

theorem compile_strictly (h : Contract.ofDocument options raw = .ok contract) :
    compile { options with strict := true } raw =
      (allResults contract.declarations).map ofDeclarations := by
  have hread : Contract.ofDocument { options with strict := true } raw = .ok contract := h
  rw [compile, hread]
  simp only [bind, Except.bind, if_true]
  cases allResults contract.declarations <;> rfl

theorem compile_leniently (h : Contract.ofDocument options raw = .ok contract) :
    compile { options with strict := false } raw = .ok (ofDeclarations contract.compiled) := by
  have hread : Contract.ofDocument { options with strict := false } raw = .ok contract := h
  rw [compile, hread]
  simp only [bind, Except.bind, Bool.false_eq_true, if_false, contract.someResults_declarations]

theorem compile_unreadable {failure : ContractError} (h : Contract.ofDocument options raw = .error failure)
    (strict : Bool) : compile { options with strict } raw = .error failure := by
  have hread : Contract.ofDocument { options with strict } raw = .error failure := h
  rw [compile, hread]
  rfl

end

/-- What can be read of a document is compiled alike with and without the option. Where strict
compilation succeeds, lenient compilation does with the same registry. Where it fails and the document
can be read, it reports the first failure in the order of paths and methods, and the lenient registry
is put together, in the same order, from the operations that can be compiled, with no part of an entry
from anything else. A document that cannot be read fails in both modes. -/
theorem compile_strict_lenient (options : Options) (raw : Json) :
    (∀ registry, compile { options with strict := true } raw = .ok registry →
      compile { options with strict := false } raw = .ok registry) ∧
    (∀ failure, compile { options with strict := true } raw = .error failure →
      (∀ reason, failure ≠ .invalidDocument reason) →
      ∃ contract, Contract.ofDocument options raw = .ok contract ∧
        (raw.ordered = true → contract.paths.Ordered) ∧ contract.FailsFirst failure ∧
        compile { options with strict := false } raw = .ok (ofDeclarations contract.compiled) ∧
        ∀ key entry, (ofDeclarations contract.compiled).get? key = some entry →
          entry.ComesFrom contract key) ∧
    (∀ reason, compile { options with strict := true } raw = .error (.invalidDocument reason) ↔
      compile { options with strict := false } raw = .error (.invalidDocument reason)) := by
  cases hcontract : Contract.ofDocument options raw with
  | error failure =>
    rw [compile_unreadable hcontract true, compile_unreadable hcontract false]
    refine ⟨(fun registry h => by cases h), fun other hother hspared => ?_, fun reason => Iff.rfl⟩
    cases hother
    obtain ⟨reason, hreason⟩ : ∃ reason, failure = .invalidDocument reason := by
      unfold Contract.ofDocument at hcontract
      cases hread : decodeDocument (prepare options raw) with
      | error e =>
        simp only [hread, Except.error.injEq] at hcontract
        exact ⟨_, hcontract.symm⟩
      | ok document =>
        simp only [hread] at hcontract
        cases hcontract
    exact absurd hreason (hspared reason)
  | ok contract =>
    rw [compile_strictly hcontract, compile_leniently hcontract]
    cases hall : allResults contract.declarations with
    | ok declarations =>
      refine ⟨fun registry h => ?_, (fun failure h => by cases h), fun reason => ?_⟩
      · cases h
        rw [← contract.someResults_declarations, allResults_eq_ok.1 hall]
        simp [someResults, Except.toOption, List.filterMap_map, Function.comp_def]
      · exact iff_of_false (fun h => by cases h) fun h => by cases h
    | error failure =>
      refine ⟨(fun registry h => by cases h), fun other h _ => ?_, fun reason => ?_⟩
      · cases h
        exact ⟨contract, rfl, fun hraw => Contract.ordered_paths hraw hcontract,
          Contract.failsFirst_of_allResults hall, rfl, fun key entry => comesFrom_compiled⟩
      · refine iff_of_false (fun h => ?_) fun h => by cases h
        cases h
        exact Contract.sparesDocument_declarations (mem_of_allResults hall) reason rfl

end Registry

end ApiContract
