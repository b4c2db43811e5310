import ApiContract.Proofs.Route.Naming
import Mathlib.Data.List.Induction
import Mathlib.Data.List.Nodup
import Mathlib.Data.List.Perm.Subperm

/-! # Routes and operations

Operations whose paths and methods differ in case only have one key, and the routes declared under one
key are put over each other. So a route is that of one operation exactly as long as keys are not shared.

* `Registry.get?_declare`: the routes by key, once they are in the order of their keys.
* `Registry.requestBody?_ofDeclarations`: what a key checks is declared last under it, part by part.
* `Contract.operations`: the operations that a contract declares.
* `Registry.keepsApart_iff`: every operation has its own route exactly if no two have one key.
* `onePath_leaves_requestBody`: two operations with one key. -/

set_option autoImplicit false

namespace ApiContract

/-! ## The order of keys -/

namespace RouteKey

variable {a b c : RouteKey}

theorem precedes_iff : a.precedes b = true ↔ a.path < b.path ∨ a.path = b.path ∧ a.method < b.method := by
  simp [precedes]

theorem precedes_ne (h : a.precedes b = true) : a ≠ b := by
  rintro rfl
  rcases precedes_iff.1 h with hpath | ⟨-, hmethod⟩
  · exact String.lt_irrefl _ hpath
  · exact String.lt_irrefl _ hmethod

theorem precedes_trans (hab : a.precedes b = true) (hbc : b.precedes c = true) :
    a.precedes c = true := by
  rw [precedes_iff] at hab hbc ⊢
  rcases hab with hab | ⟨hab, hmethod⟩
  · rcases hbc with hbc | ⟨hbc, -⟩
    · exact .inl (String.lt_trans hab hbc)
    · exact .inl (hbc ▸ hab)
  · rcases hbc with hbc | ⟨hbc, hnext⟩
    · exact .inl (hab ▸ hbc)
    · exact .inr ⟨hab.trans hbc, String.lt_trans hmethod hnext⟩

theorem precedes_of_not (hne : a ≠ b) (h : ¬ a.precedes b = true) : b.precedes a = true := by
  rw [precedes_iff, not_or, not_and] at h
  obtain ⟨hpath, hmethod⟩ := h
  rw [precedes_iff]
  have hle : b.path ≤ a.path := String.not_lt.1 hpath
  by_cases hsame : a.path = b.path
  · refine .inr ⟨hsame.symm, Decidable.byContradiction fun hnot => hne ?_⟩
    have hmethods := String.le_antisymm (String.not_lt.1 hnot) (String.not_lt.1 (hmethod hsame))
    cases a
    cases b
    simp_all
  · exact .inl (Decidable.byContradiction fun hnot =>
      hsame (String.le_antisymm (String.not_lt.1 hnot) hle))

end RouteKey

/-! ## Routes by key -/

namespace Registry

variable {registry : Registry} {key other : RouteKey} {route : Route}

/-- The keys come in their order, each once. -/
def Ordered (registry : Registry) : Prop :=
  (registry.map Prod.fst).Pairwise fun a b => a.precedes b = true

theorem ordered_cons {entry : RouteKey × Route} :
    Ordered (entry :: registry) ↔
      (∀ later ∈ registry, entry.1.precedes later.1 = true) ∧ registry.Ordered := by
  simp [Ordered]

theorem Ordered.nodup (h : registry.Ordered) : (registry.map Prod.fst).Nodup :=
  List.Pairwise.imp (fun hab => RouteKey.precedes_ne hab) h

theorem get?_cons (entry : RouteKey × Route) (rest : Registry) :
    get? (entry :: rest) key = if entry.1 = key then some entry.2 else get? rest key := by
  by_cases h : entry.1 = key
  · simp [get?, h]
  · simp [get?, h]

theorem get?_eq_none_iff : registry.get? key = none ↔ key ∉ registry.map Prod.fst := by
  induction registry with
  | nil => simp [get?]
  | cons entry rest ih =>
    rw [get?_cons, List.map_cons, List.mem_cons, not_or, ← ih]
    by_cases h : entry.1 = key
    · simp [h]
    · simp [h, Ne.symm h]

theorem mem_keys_declare {registry : Registry} : other ∈ (declare key route registry).map Prod.fst ↔
    other = key ∨ other ∈ registry.map Prod.fst := by
  induction registry with
  | nil => simp [declare]
  | cons entry rest ih =>
    rw [declare]
    split
    · rename_i hknown
      simp [← hknown]
    · split
      · simp
      · simp only [List.map_cons, List.mem_cons, ih]
        exact or_left_comm

theorem Ordered.declare (h : registry.Ordered) (key : RouteKey) (route : Route) :
    (Registry.declare key route registry).Ordered := by
  induction registry with
  | nil => simp [Registry.declare, Ordered]
  | cons entry rest ih =>
    obtain ⟨hfirst, hrest⟩ := ordered_cons.1 h
    rw [Registry.declare]
    split
    · rename_i hknown
      exact ordered_cons.2 ⟨hknown ▸ hfirst, hrest⟩
    · rename_i hne
      split
      · rename_i hprecedes
        refine ordered_cons.2 ⟨fun later hlater => ?_, h⟩
        rcases List.mem_cons.1 hlater with rfl | hmem
        · exact hprecedes
        · exact RouteKey.precedes_trans hprecedes (hfirst later hmem)
      · rename_i hnot
        refine ordered_cons.2 ⟨fun later hlater => ?_, ih hrest⟩
        rcases mem_keys_declare.1 (List.mem_map_of_mem hlater) with heq | hmem
        · rw [heq]
          exact RouteKey.precedes_of_not (Ne.symm hne) hnot
        · obtain ⟨known, hknown, hkey⟩ := List.mem_map.1 hmem
          exact hkey ▸ hfirst known hknown

/-- A declaration goes over the earlier one of its key and leaves the others. -/
theorem get?_declare (h : registry.Ordered) (key other : RouteKey) (route : Route) :
    (declare key route registry).get? other =
      if key = other then some ((registry.get? key).elim route route.over) else registry.get? other := by
  induction registry with
  | nil => rw [declare, get?_cons]; rfl
  | cons entry rest ih =>
    obtain ⟨hfirst, hrest⟩ := ordered_cons.1 h
    rw [declare]
    split
    · rename_i hknown
      rw [get?_cons, get?_cons, get?_cons, if_pos hknown, hknown]
      by_cases hother : key = other
      · rw [if_pos hother, if_pos hother]
        rfl
      · rw [if_neg hother, if_neg hother, if_neg hother]
    · rename_i hne
      split
      · rename_i hprecedes
        -- all keys behind are larger still, so there is no earlier declaration
        have hfresh : get? (entry :: rest) key = none := by
          rw [get?_eq_none_iff, List.map_cons, List.mem_cons, not_or]
          refine ⟨Ne.symm hne, fun hmem => ?_⟩
          obtain ⟨known, hknown, hkey⟩ := List.mem_map.1 hmem
          exact RouteKey.precedes_ne (RouteKey.precedes_trans hprecedes (hfirst known hknown)) hkey.symm
        rw [get?_cons, hfresh]
        rfl
      · rw [get?_cons, ih hrest, get?_cons, get?_cons, if_neg hne]
        by_cases hother : key = other
        · rw [if_pos hother, if_pos hother, if_neg (hother ▸ hne)]
        · rw [if_neg hother, if_neg hother]

theorem perm_declare (h : key ∉ registry.map Prod.fst) :
    (declare key route registry).Perm ((key, route) :: registry) := by
  induction registry with
  | nil => exact List.Perm.refl _
  | cons entry rest ih =>
    rw [List.map_cons, List.mem_cons, not_or] at h
    rw [declare, if_neg (Ne.symm h.1)]
    split
    · exact List.Perm.refl _
    · exact ((ih h.2).cons entry).trans (List.Perm.swap ..)

/-! ## All declarations -/

variable {declarations : List (RouteKey × Route)}

theorem ofDeclarations_concat (declaration : RouteKey × Route) :
    ofDeclarations (declarations ++ [declaration]) =
      declare declaration.1 declaration.2 (ofDeclarations declarations) := by
  rw [ofDeclarations, List.foldl_append]
  rfl

theorem ordered_ofDeclarations (declarations : List (RouteKey × Route)) :
    (ofDeclarations declarations).Ordered := by
  induction declarations using List.reverseRecOn with
  | nil => exact List.Pairwise.nil
  | append_singleton earlier last ih =>
    rw [ofDeclarations_concat]
    exact ih.declare last.1 last.2

theorem mem_keys_ofDeclarations :
    key ∈ (ofDeclarations declarations).map Prod.fst ↔ key ∈ declarations.map Prod.fst := by
  induction declarations using List.reverseRecOn with
  | nil => rfl
  | append_singleton earlier last ih =>
    rw [ofDeclarations_concat, mem_keys_declare, ih, List.map_append, List.mem_append, or_comm]
    simp

/-- The routes declared under a key, the last one first. -/
def declaredUnder (key : RouteKey) (declarations : List (RouteKey × Route)) : List Route :=
  (declarations.reverse.filter fun declaration => declaration.1 = key).map Prod.snd

theorem declaredUnder_concat (key : RouteKey) (declaration : RouteKey × Route) :
    declaredUnder key (declarations ++ [declaration]) =
      if declaration.1 = key then declaration.2 :: declaredUnder key declarations
      else declaredUnder key declarations := by
  unfold declaredUnder
  rw [List.reverse_append, List.reverse_singleton, List.singleton_append, List.filter_cons]
  by_cases h : declaration.1 = key
  · simp [h]
  · simp [h]

/-- Routes put over each other, the last one first. -/
def layered : List Route → Option Route
  | [] => none
  | route :: earlier => some ((layered earlier).elim route route.over)

theorem get?_ofDeclarations (key : RouteKey) (declarations : List (RouteKey × Route)) :
    (ofDeclarations declarations).get? key = layered (declaredUnder key declarations) := by
  induction declarations using List.reverseRecOn with
  | nil => rfl
  | append_singleton earlier last ih =>
    rw [ofDeclarations_concat, get?_declare (ordered_ofDeclarations earlier), declaredUnder_concat]
    by_cases h : last.1 = key
    · rw [if_pos h, if_pos h, layered, ← ih, h]
    · rw [if_neg h, if_neg h, ih]

theorem layered_bind {α : Type} (part : Route → Option α)
    (hpart : ∀ later earlier : Route, part (later.over earlier) = (part later).or (part earlier))
    (routes : List Route) : (layered routes).bind part = routes.findSome? part := by
  induction routes with
  | nil => rfl
  | cons route earlier ih =>
    rw [layered, Option.bind_some, List.findSome?_cons, ← ih]
    cases layered earlier with
    | none => rw [Option.elim_none, Option.bind_none]; cases part route <;> rfl
    | some known => rw [Option.elim_some, hpart, Option.bind_some]; cases part route <;> rfl

/-- The request body that a key checks is the one declared last, also if a later declaration has
none. -/
theorem requestBody?_ofDeclarations (key : RouteKey) (declarations : List (RouteKey × Route)) :
    (ofDeclarations declarations).requestBody? key =
      (declaredUnder key declarations).findSome? (·.requestBody) := by
  rw [requestBody?, get?_ofDeclarations, layered_bind (·.requestBody) fun _ _ => rfl]

theorem perm_ofDeclarations (h : (declarations.map Prod.fst).Nodup) :
    (ofDeclarations declarations).Perm declarations := by
  induction declarations using List.reverseRecOn with
  | nil => exact List.Perm.refl _
  | append_singleton earlier last ih =>
    rw [List.map_append, List.nodup_append] at h
    obtain ⟨hearlier, -, hapart⟩ := h
    have hfresh : last.1 ∉ (ofDeclarations earlier).map Prod.fst := by
      rw [mem_keys_ofDeclarations]
      exact fun hmem => hapart _ hmem _ (List.mem_singleton.2 rfl) rfl
    rw [ofDeclarations_concat]
    exact (perm_declare hfresh).trans (((ih hearlier).cons last).trans
      (List.perm_append_singleton last earlier).symm)

/-- As many routes as declarations: no two declarations have one key. -/
theorem nodup_of_length (h : (ofDeclarations declarations).length = declarations.length) :
    (declarations.map Prod.fst).Nodup := by
  have hkeys := (ordered_ofDeclarations declarations).nodup
  have hsubset : (ofDeclarations declarations).map Prod.fst ⊆ declarations.map Prod.fst :=
    fun _ hmem => mem_keys_ofDeclarations.1 hmem
  have hsubperm := List.subperm_of_subset hkeys hsubset
  have hperm := hsubperm.perm_of_length_le
    (Nat.le_of_eq (by rw [List.length_map, List.length_map, h]))
  exact hperm.nodup_iff.1 hkeys

end Registry

/-! ## Operations -/

/-- An operation as a contract declares it, with the parameters that the operations of its path
share. -/
structure DeclaredOperation where
  path : String
  method : Method
  raw : Json
  shared : List Json

/-- The key under which an operation is known. -/
def DeclaredOperation.key (operation : DeclaredOperation) : RouteKey :=
  .of operation.path operation.method.name

namespace Contract

/-- The operations of a path; none if it cannot be read. -/
def operationsOfPath (path : String) (raw : Json) : List DeclaredOperation :=
  match readPathItem path raw with
  | .error _ => []
  | .ok item => item.operations.map fun entry => ⟨path, entry.1, entry.2, item.parameters⟩

/-- The operations that a contract declares. -/
def operations (contract : Contract) : List DeclaredOperation :=
  contract.paths.flatMap fun entry => operationsOfPath entry.1 entry.2

/-- The route of a declared operation. -/
def routeOf (contract : Contract) (operation : DeclaredOperation) : Except ContractError Route :=
  contract.compileOperation operation.path operation.method operation.raw operation.shared

end Contract

section

variable {ε α : Type} {outcomes : List (Except ε α)} {results : List α}

theorem allResults_eq_ok : allResults outcomes = .ok results ↔ outcomes = results.map .ok := by
  induction outcomes generalizing results with
  | nil => cases results <;> simp [allResults]
  | cons outcome rest ih =>
    cases outcome with
    | error e => cases results <;> simp [allResults]
    | ok value =>
      rw [allResults]
      cases hrest : allResults rest with
      | error e =>
        refine iff_of_false (by simp [Except.map]) fun heq => ?_
        cases results with
        | nil => cases heq
        | cons first others =>
          rw [List.map_cons, List.cons.injEq] at heq
          rw [ih.2 heq.2] at hrest
          cases hrest
      | ok others =>
        rw [ih] at hrest
        subst hrest
        cases results with
        | nil => simp [Except.map]
        | cons first more => simp [Except.map, List.map_inj_right]

end

namespace Contract

variable {contract : Contract} {declarations : List (RouteKey × Route)}

/-- The declaration of an operation and its route. -/
def Declares (contract : Contract) (operation : DeclaredOperation)
    (declaration : RouteKey × Route) : Prop :=
  operation.key = declaration.1 ∧ contract.routeOf operation = .ok declaration.2

theorem declares_of_pathDeclarations {path : String} {raw : Json}
    (h : contract.pathDeclarations path raw = declarations.map .ok) :
    List.Forall₂ contract.Declares (operationsOfPath path raw) declarations := by
  unfold pathDeclarations at h
  unfold operationsOfPath
  cases hread : readPathItem path raw with
  | error e =>
    rw [hread] at h
    cases declarations with
    | nil => cases h
    | cons first rest => cases h
  | ok item =>
    rw [hread] at h
    simp only at h ⊢
    generalize item.operations = operations at h
    induction operations generalizing declarations with
    | nil =>
      rw [List.map_nil, eq_comm, List.map_eq_nil_iff] at h
      rw [h]
      exact .nil
    | cons entry rest ih =>
      cases declarations with
      | nil => cases h
      | cons first others =>
        rw [List.map_cons, List.map_cons, List.cons.injEq] at h
        refine .cons ?_ (ih h.2)
        cases hroute : contract.compileOperation path entry.1 entry.2 item.parameters with
        | error e =>
          rw [hroute] at h
          cases h.1
        | ok route =>
          rw [hroute] at h
          cases h.1
          exact ⟨rfl, hroute⟩

/-- Where all operations can be compiled, there is one declaration for each of them. -/
theorem declares_of_declarations (h : contract.declarations = declarations.map .ok) :
    List.Forall₂ contract.Declares contract.operations declarations := by
  unfold Contract.declarations at h
  unfold operations
  generalize contract.paths = paths at h
  induction paths generalizing declarations with
  | nil =>
    rw [List.flatMap_nil, eq_comm, List.map_eq_nil_iff] at h
    rw [h]
    exact .nil
  | cons entry rest ih =>
    rw [List.flatMap_cons] at h ⊢
    obtain ⟨front, back, rfl, hfront, hback⟩ := List.map_eq_append_iff.1 h.symm
    exact List.rel_append (declares_of_pathDeclarations hfront.symm) (ih hback.symm)

end Contract

/-! ## Routes of their own -/

/-- What a registry tells of a key is what one route checks. -/
structure Registry.TellsOf (registry : Registry) (key : RouteKey) (route : Route) : Prop where
  requestBody : registry.requestBody? key = route.requestBody
  response : ∀ status, registry.response? key status = route.responses.get? status
  parameters : registry.parameters key = route.parameters
  coercer : registry.coercer? key = route.coercer

theorem Registry.tellsOf_of_get? {registry : Registry} {key : RouteKey} {route : Route}
    (h : registry.get? key = some route) : registry.TellsOf key route where
  requestBody := by rw [requestBody?, h, Option.bind_some]
  response := fun status => by rw [response?, h, Option.bind_some]
  parameters := by rw [Registry.parameters, h]; rfl
  coercer := by rw [coercer?, h, Option.bind_some]

/-- An operation has a route of its own: the registry tells of its key what was compiled from it. -/
def Registry.HasOwn (registry : Registry) (contract : Contract) (operation : DeclaredOperation)
    (route : Route) : Prop :=
  contract.routeOf operation = .ok route ∧ registry.TellsOf operation.key route

/-- Every declared operation has a route of its own, and there is one summary for each of them. -/
def Registry.KeepsApart (registry : Registry) (contract : Contract) : Prop :=
  ∃ routes : List Route,
    List.Forall₂ (registry.HasOwn contract) contract.operations routes ∧
      registry.summaries.Perm
        (List.zipWith (fun operation route => .ofRoute operation.key route) contract.operations
          routes)

section

variable {contract : Contract} {declarations : List (RouteKey × Route)}
  {operations : List DeclaredOperation}

theorem keys_of_declares (h : List.Forall₂ contract.Declares operations declarations) :
    operations.map DeclaredOperation.key = declarations.map Prod.fst := by
  induction h with
  | nil => rfl
  | cons hone _ ih => rw [List.map_cons, List.map_cons, hone.1, ih]

theorem summaries_of_declares (h : List.Forall₂ contract.Declares operations declarations) :
    List.zipWith (fun operation route => RouteSummary.ofRoute operation.key route) operations
      (declarations.map Prod.snd) = Registry.summaries declarations := by
  unfold Registry.summaries
  induction h with
  | nil => rfl
  | cons hone _ ih => rw [List.map_cons, List.zipWith_cons_cons, List.map_cons, hone.1, ih]

theorem Registry.mem_declaredUnder {key : RouteKey} {route : Route} :
    route ∈ declaredUnder key declarations ↔ (key, route) ∈ declarations := by
  unfold declaredUnder
  constructor
  · intro h
    obtain ⟨⟨known, given⟩, hmem, rfl⟩ := List.mem_map.1 h
    obtain ⟨hmem, hkey⟩ := List.mem_filter.1 hmem
    rw [← of_decide_eq_true hkey]
    exact List.mem_reverse.1 hmem
  · intro h
    refine List.mem_map.2 ⟨(key, route), List.mem_filter.2 ⟨List.mem_reverse.2 h, ?_⟩, rfl⟩
    exact decide_eq_true rfl

theorem Registry.length_declaredUnder (key : RouteKey) (declarations : List (RouteKey × Route)) :
    (declaredUnder key declarations).length = (declarations.map Prod.fst).count key := by
  induction declarations using List.reverseRecOn with
  | nil => rfl
  | append_singleton earlier last ih =>
    rw [declaredUnder_concat, List.map_append, List.count_append, ← ih]
    by_cases h : last.1 = key
    · simp [h]
    · simp [h]

/-- The route under a key is that of its operation if no other operation has the key. -/
theorem hasOwn_of_count (h : List.Forall₂ contract.Declares operations declarations)
    {operation : DeclaredOperation} {declaration : RouteKey × Route}
    (hdeclares : contract.Declares operation declaration) (hmem : declaration ∈ declarations)
    (hcount : (operations.map DeclaredOperation.key).count operation.key = 1) :
    (Registry.ofDeclarations declarations).HasOwn contract operation declaration.2 := by
  obtain ⟨hkey, hroute⟩ := hdeclares
  refine ⟨hroute, Registry.tellsOf_of_get? ?_⟩
  have hunder : declaration.2 ∈ Registry.declaredUnder operation.key declarations :=
    Registry.mem_declaredUnder.2 (hkey ▸ hmem)
  rw [keys_of_declares h, ← Registry.length_declaredUnder] at hcount
  obtain ⟨only, honly⟩ := List.length_eq_one_iff.1 hcount
  rw [honly, List.mem_singleton] at hunder
  rw [Registry.get?_ofDeclarations, honly, ← hunder]
  rfl

theorem keepsApart_ofDeclarations
    (h : List.Forall₂ contract.Declares contract.operations declarations)
    (hkeys : (contract.operations.map DeclaredOperation.key).Nodup) :
    (Registry.ofDeclarations declarations).KeepsApart contract := by
  refine ⟨declarations.map Prod.snd, ?_, ?_⟩
  · rw [List.forall₂_map_right_iff, List.forall₂_iff_get]
    refine ⟨h.length_eq, fun place hoperation hdeclaration => ?_⟩
    refine hasOwn_of_count h (h.get hoperation hdeclaration) (List.get_mem ..) ?_
    exact List.count_eq_one_of_mem hkeys (List.mem_map_of_mem (List.get_mem ..))
  · rw [summaries_of_declares h]
    exact (Registry.perm_ofDeclarations (keys_of_declares h ▸ hkeys)).map _

theorem nodup_of_keepsApart (h : List.Forall₂ contract.Declares contract.operations declarations)
    (hapart : (Registry.ofDeclarations declarations).KeepsApart contract) :
    (contract.operations.map DeclaredOperation.key).Nodup := by
  obtain ⟨routes, hroutes, hsummaries⟩ := hapart
  have hlength := hsummaries.length_eq
  rw [Registry.summaries, List.length_map, List.length_zipWith, ← hroutes.length_eq, Nat.min_self,
    h.length_eq] at hlength
  rw [keys_of_declares h]
  exact Registry.nodup_of_length hlength

end

section

variable {options : Options} {raw : Json} {contract : Contract} {registry : Registry}

theorem Registry.compile_strict (hstrict : options.strict = true)
    (hcontract : Contract.ofDocument options raw = .ok contract)
    (hregistry : Registry.compile options raw = .ok registry) :
    ∃ declarations, registry = .ofDeclarations declarations ∧
      List.Forall₂ contract.Declares contract.operations declarations := by
  unfold Registry.compile at hregistry
  rw [hcontract] at hregistry
  cases hall : allResults contract.declarations with
  | error e =>
    simp [hstrict, hall, bind, Except.bind] at hregistry
  | ok declarations =>
    simp only [hstrict, hall, bind, Except.bind, if_true, Except.ok.injEq] at hregistry
    exact ⟨declarations, hregistry.symm, Contract.declares_of_declarations (allResults_eq_ok.1 hall)⟩

/-- An operation whose key is that of no other operation has its own route. All operations have, with
one summary for each, exactly if no two of them have one key. -/
theorem Registry.keepsApart_iff (hstrict : options.strict = true)
    (hcontract : Contract.ofDocument options raw = .ok contract)
    (hregistry : Registry.compile options raw = .ok registry) :
    (∀ operation ∈ contract.operations,
        (contract.operations.map DeclaredOperation.key).count operation.key = 1 →
          ∃ route, registry.HasOwn contract operation route) ∧
      (registry.KeepsApart contract ↔
        (contract.operations.map DeclaredOperation.key).Nodup) := by
  obtain ⟨declarations, rfl, hdeclares⟩ := Registry.compile_strict hstrict hcontract hregistry
  refine ⟨fun operation hmem hcount => ?_, nodup_of_keepsApart hdeclares,
    keepsApart_ofDeclarations hdeclares⟩
  obtain ⟨place, hplace, rfl⟩ := List.getElem_of_mem hmem
  have hother : place < declarations.length := hdeclares.length_eq ▸ hplace
  exact ⟨_, hasOwn_of_count hdeclares (hdeclares.get hplace hother) (List.get_mem ..) hcount⟩

end

/-! ## One key for two operations -/

theorem CompiledSchema.compile_anything (name : String) :
    CompiledSchema.compile name (.object []) none = .ok ⟨name, .object [], false⟩ := by
  have hforeign : foreignFault? (.object []) = none := by
    unfold foreignFault?
    rw [nestedSchemas]
    rfl
  have hmeta : metaFault? (.object []) = none := by
    unfold metaFault? Evaluation.findings metaSchema
    rw [Evaluation.findingsWith]
    rfl
  have hkeywords : keywordFault? (.object []) = none := by
    unfold keywordFault?
    rw [checkKeywords]
    rfl
  have hreaches : reachesDiscriminator (.object []) = false := by
    unfold reachesDiscriminator
    rw [withoutComponents, searchCases]
    rfl
  have hroot : rootOf (.object []) none = .object [] := rfl
  rw [compile_of_faultless hroot hforeign hmeta hkeywords, hreaches]

/-- An operation with a request body, which may be anything. -/
def bodyOperation : Json :=
  .object
    [("requestBody", .object
      [("content", .object [("application/json", .object [("schema", .object [])])])]),
     ("responses", .object [])]

/-- An operation without a request body. -/
def bareOperation : Json := .object [("responses", .object [])]

/-- The paths of two operations, of which the first has a request body. -/
def pairPaths (second : String) : Fields :=
  [("/A", .object [("post", bodyOperation)]), (second, .object [("post", bareOperation)])]

def pairContract (second : String) : Contract :=
  ⟨.object [("paths", .object (pairPaths second))], pairPaths second, none, .lenient⟩

/-- What is checked on a route without a request body: nothing. -/
def bareRoute (path : String) : Route := ⟨path, none, [], [], none⟩

def bodyRoute : Route :=
  { bareRoute "/A" with
    requestBody := some ⟨⟨"#/paths/A/post/requestBody", .object [], false⟩, false⟩ }

theorem pairContract_operations (second : String) :
    (pairContract second).operations =
      [⟨"/A", .post, bodyOperation, []⟩, ⟨second, .post, bareOperation, []⟩] := rfl

theorem pairContract_declarations (second : String) :
    (pairContract second).declarations =
      [.ok (.of "/A" "post", bodyRoute), .ok (.of second "post", bareRoute second)] := by
  have hschema : (pairContract second).compileSchema "#/paths/A/post/requestBody" (.object []) =
      .ok ⟨"#/paths/A/post/requestBody", .object [], false⟩ := CompiledSchema.compile_anything _
  have hbody : (pairContract second).compileOperation "/A" .post bodyOperation [] =
      .ok bodyRoute := by
    show ((pairContract second).compileSchema "#/paths/A/post/requestBody" (.object []) >>=
      fun compiled => _) >>= _ = _
    rw [hschema]
    rfl
  have hbare : (pairContract second).compileOperation second .post bareOperation [] =
      .ok (bareRoute second) := rfl
  show [((pairContract second).compileOperation "/A" .post bodyOperation []).map _,
    ((pairContract second).compileOperation second .post bareOperation []).map _] = _
  rw [hbody, hbare]
  rfl

theorem pairContract_ofDocument {second : String} (h : second = "/a" ∨ second = "/b") :
    Contract.ofDocument .defaults (pairContract second).document = .ok (pairContract second) := by
  rcases h with rfl | rfl <;> rfl

theorem pairContract_compile {second : String} (h : second = "/a" ∨ second = "/b") :
    Registry.compile .defaults (pairContract second).document =
      .ok (.ofDeclarations
        [(.of "/A" "post", bodyRoute), (.of second "post", bareRoute second)]) := by
  unfold Registry.compile
  rw [pairContract_ofDocument h]
  simp only [bind, Except.bind, pairContract_declarations]
  rfl

theorem twoPaths_keptApart :
    ∃ contract registry, Options.defaults.strict = true ∧
      Contract.ofDocument .defaults (pairContract "/b").document = .ok contract ∧
      Registry.compile .defaults (pairContract "/b").document = .ok registry ∧
      (contract.operations.map DeclaredOperation.key).Nodup ∧ registry.KeepsApart contract := by
  have hcontract := pairContract_ofDocument (.inr rfl : "/b" = "/a" ∨ "/b" = "/b")
  have hregistry := pairContract_compile (.inr rfl : "/b" = "/a" ∨ "/b" = "/b")
  have hkeys : ((pairContract "/b").operations.map DeclaredOperation.key).Nodup := by
    rw [pairContract_operations]
    decide +kernel
  exact ⟨_, _, rfl, hcontract, hregistry, hkeys,
    (Registry.keepsApart_iff rfl hcontract hregistry).2.2 hkeys⟩

/-- In lower case the two paths are one, and the request body of the first stays for the second. -/
theorem onePath_leaves_requestBody :
    ∃ contract registry operation route, Options.defaults.strict = true ∧
      Contract.ofDocument .defaults (pairContract "/a").document = .ok contract ∧
      Registry.compile .defaults (pairContract "/a").document = .ok registry ∧
      operation ∈ contract.operations ∧ contract.routeOf operation = .ok route ∧
      route.requestBody.isNone ∧ (registry.requestBody? operation.key).isSome ∧
      registry.summaries.length = 1 ∧ contract.operations.length = 2 := by
  have hkey : RouteKey.of "/A" "post" = RouteKey.of "/a" "post" := by decide +kernel
  have hcontract := pairContract_ofDocument (.inl rfl : "/a" = "/a" ∨ "/a" = "/b")
  have hregistry := pairContract_compile (.inl rfl : "/a" = "/a" ∨ "/a" = "/b")
  rw [hkey] at hregistry
  have hmem : (⟨"/a", .post, bareOperation, []⟩ : DeclaredOperation) ∈
      (pairContract "/a").operations := by
    rw [pairContract_operations]
    exact List.mem_cons_of_mem _ (List.mem_singleton.2 rfl)
  refine ⟨_, _, _, bareRoute "/a", rfl, hcontract, hregistry, hmem, rfl, rfl, ?_, ?_, rfl⟩
  · rw [Registry.requestBody?_ofDeclarations]
    simp [Registry.declaredUnder, DeclaredOperation.key, Method.name, bareRoute, bodyRoute]
  · simp [Registry.summaries, Registry.ofDeclarations, Registry.declare]

end ApiContract
