import ApiContract.Proofs.Route.Leniency

/-! # Parameters of operations

The operations of a path share parameters, and an operation has parameters of its own. Those of the
operation are put over the shared ones, name by name and location by location, and what is left in the
query with a schema becomes the query parameters of the route.

* `signed_effectiveParameters`: which parameters of one name and location are left.
* `Applies`, `Applies.mem_effectiveParameters`: those that are in force whatever else is declared.
* `Contract.parametersOf`: the parameters that an operation declares, behind their references.
* `Contract.Enters`: a query parameter of a route and the declared one that it is made of.
* `Contract.tables_of_routeOf`: where the tables of a route come from. -/

set_option autoImplicit false

namespace ApiContract

open Contract

/-! ## Putting parameters over others -/

/-- What has to agree for a parameter to be put over another one. -/
def Parameter.signature (parameter : Parameter) : String × ParameterLocation :=
  (parameter.name, parameter.location)

/-- The parameters of one name and location, in their order. -/
def signed (signature : String × ParameterLocation) (parameters : List Parameter) : List Parameter :=
  parameters.filter fun parameter => parameter.signature = signature

section

variable {signature : String × ParameterLocation} {parameter other : Parameter}
  {parameters shared own : List Parameter}

theorem mem_signed : parameter ∈ signed signature parameters ↔
    parameter ∈ parameters ∧ parameter.signature = signature := by
  rw [signed, List.mem_filter, decide_eq_true_eq]

theorem signed_nil : signed signature [] = [] := rfl

theorem signed_cons (parameter : Parameter) (rest : List Parameter) :
    signed signature (parameter :: rest) =
      if parameter.signature = signature then parameter :: signed signature rest
      else signed signature rest := by
  simp [signed, List.filter_cons]

theorem signed_append (front back : List Parameter) :
    signed signature (front ++ back) = signed signature front ++ signed signature back :=
  List.filter_append ..

/-- Only the first parameter of the same signature gives way. -/
theorem signed_overrideParameter (parameter : Parameter) (parameters : List Parameter) :
    signed signature (overrideParameter parameter parameters) =
      if parameter.signature = signature then parameter :: (signed signature parameters).tail
      else signed signature parameters := by
  induction parameters with
  | nil =>
    rw [overrideParameter, signed_cons]
    rfl
  | cons first rest ih =>
    have hsame : (first.name = parameter.name ∧ first.location = parameter.location) ↔
        first.signature = parameter.signature := by
      rw [Parameter.signature, Parameter.signature, Prod.mk.injEq]
    rw [overrideParameter, signed_cons]
    by_cases hfirst : first.signature = parameter.signature
    · rw [if_pos (hsame.2 hfirst), signed_cons]
      by_cases hsignature : parameter.signature = signature
      · rw [if_pos hsignature, if_pos hsignature, if_pos (hfirst.trans hsignature), List.tail_cons]
      · rw [if_neg hsignature, if_neg hsignature, if_neg (hfirst ▸ hsignature)]
    · rw [if_neg (mt hsame.1 hfirst), signed_cons, ih]
      by_cases hsignature : parameter.signature = signature
      · rw [if_pos hsignature, if_pos hsignature, if_neg (hsignature ▸ hfirst),
          if_neg (hsignature ▸ hfirst)]
      · rw [if_neg hsignature, if_neg hsignature]

/-- Of the own parameters of a signature the last one is left, in the place of the first shared one; the
other shared ones stay. -/
theorem signed_effectiveParameters (signature : String × ParameterLocation)
    (shared own : List Parameter) : signed signature (effectiveParameters shared own) =
      match (signed signature own).getLast? with
      | some last => last :: (signed signature shared).tail
      | none => signed signature shared := by
  induction own using List.reverseRecOn with
  | nil => rfl
  | append_singleton earlier last ih =>
    rw [effectiveParameters, List.foldl_append, List.foldl_cons, List.foldl_nil,
      signed_overrideParameter, ← effectiveParameters, ih, signed_append, signed_cons]
    by_cases hlast : last.signature = signature
    · rw [if_pos hlast, if_pos hlast, List.getLast?_append]
      cases (signed signature earlier).getLast? <;> rfl
    · rw [if_neg hlast, if_neg hlast, signed_nil, List.append_nil]

/-- A parameter is in force: it is the last own one of its name and location, or a shared one with no
own one over it. -/
def Applies (shared own : List Parameter) (parameter : Parameter) : Prop :=
  (∃ before after, own = before ++ parameter :: after ∧
    ∀ later ∈ after, later.signature ≠ parameter.signature) ∨
  (parameter ∈ shared ∧ ∀ other ∈ own, other.signature ≠ parameter.signature)

theorem signed_eq_nil_iff : signed signature parameters = [] ↔
    ∀ parameter ∈ parameters, parameter.signature ≠ signature := by
  simp [signed, List.filter_eq_nil_iff]

theorem Applies.mem_effectiveParameters (h : Applies shared own parameter) :
    parameter ∈ effectiveParameters shared own := by
  have hsigned : parameter ∈ signed parameter.signature (effectiveParameters shared own) := by
    rw [signed_effectiveParameters]
    rcases h with ⟨before, after, rfl, hafter⟩ | ⟨hmem, hown⟩
    · rw [signed_append, signed_cons, if_pos rfl, signed_eq_nil_iff.2 hafter, List.getLast?_append]
      exact List.mem_cons_self
    · rw [signed_eq_nil_iff.2 hown]
      exact mem_signed.2 ⟨hmem, rfl⟩
  exact (mem_signed.1 hsigned).1

theorem mem_of_mem_effectiveParameters (h : parameter ∈ effectiveParameters shared own) :
    parameter ∈ shared ∨ parameter ∈ own := by
  have hsigned : parameter ∈ signed parameter.signature (effectiveParameters shared own) :=
    mem_signed.2 ⟨h, rfl⟩
  rw [signed_effectiveParameters] at hsigned
  split at hsigned
  · rename_i last hlast
    rcases List.mem_cons.1 hsigned with rfl | htail
    · exact .inr (mem_signed.1 (List.mem_of_getLast? hlast)).1
    · exact .inl (mem_signed.1 (List.mem_of_mem_tail htail)).1
  · exact .inl (mem_signed.1 hsigned).1

/-! ## Query parameters with a schema -/

theorem mem_querySchemas {schema : Json} : (parameter, schema) ∈ querySchemas parameters ↔
    parameter ∈ parameters ∧ parameter.location = .query ∧ parameter.schema = some schema := by
  rw [querySchemas, List.mem_filterMap]
  constructor
  · rintro ⟨found, hfound, hsome⟩
    split at hsome
    · rename_i hquery
      obtain ⟨given, hgiven, heq⟩ := Option.map_eq_some_iff.1 hsome
      cases heq
      exact ⟨hfound, hquery, hgiven⟩
    · cases hsome
  · rintro ⟨hmem, hquery, hschema⟩
    exact ⟨parameter, hmem, by rw [if_pos hquery, hschema]; rfl⟩

end

/-! ## Parameters of a route -/

namespace Contract

/-- The shared parameters of an operation and its own, in place or by reference. -/
def parametersOf (contract : Contract) (operation : DeclaredOperation) :
    Except ContractError (List Parameter × List Parameter) := do
  let location := pathLocation operation.path
  let read ← readDefinition decodeOperation (location ++ "/" ++ operation.method.name) operation.raw
  let entries ← readParameters location 0 operation.shared
  let shared ← contract.resolveParameters entries
  let own ← contract.resolveParameters read.parameters
  .ok (shared, own)

/-- A query parameter of a route is made of a declared one and its schema. -/
def Enters (contract : Contract) (base : String) (source : Parameter × Json)
    (entry : QueryParameter) : Prop :=
  entry.name = lowerCase source.1.name ∧ entry.required = source.1.required ∧
    entry.allowEmptyValue = source.1.allowEmptyValue ∧
    contract.compileSchema (base ++ "/parameters/" ++ source.1.name) source.2 = .ok entry.schema

variable {contract : Contract} {operation : DeclaredOperation} {route : Route}

theorem enters_of_compileParameters {base : String} {sources : List (Parameter × Json)}
    {entries : List QueryParameter} (h : contract.compileParameters base sources = .ok entries) :
    List.Forall₂ (contract.Enters base) sources entries := by
  induction sources generalizing entries with
  | nil =>
    cases h
    exact .nil
  | cons source rest ih =>
    obtain ⟨compiled, hcompiled, h⟩ := exists_of_bind_ok h
    obtain ⟨others, hothers, h⟩ := exists_of_bind_ok h
    cases h
    exact .cons ⟨rfl, rfl, rfl, hcompiled⟩ (ih hothers)

/-- The query parameters of a route are made, one by one, of the declared parameters in force, and its
coercer of their schemas. -/
theorem tables_of_routeOf (h : contract.routeOf operation = .ok route) :
    ∃ shared own, contract.parametersOf operation = .ok (shared, own) ∧
      List.Forall₂ (contract.Enters (schemaBase operation.path operation.method.name))
        (querySchemas (effectiveParameters shared own)) route.parameters ∧
      route.coercer = contract.coercerOf (querySchemas (effectiveParameters shared own)) := by
  obtain ⟨read, hread, h⟩ := exists_of_bind_ok h
  obtain ⟨entries, hentries, h⟩ := exists_of_bind_ok h
  obtain ⟨_, -, h⟩ := exists_of_bind_ok h
  obtain ⟨_, -, h⟩ := exists_of_bind_ok h
  obtain ⟨shared, hshared, h⟩ := exists_of_bind_ok h
  obtain ⟨own, hown, h⟩ := exists_of_bind_ok h
  obtain ⟨parameters, hparameters, h⟩ := exists_of_bind_ok h
  cases h
  refine ⟨shared, own, ?_, enters_of_compileParameters hparameters, rfl⟩
  simp only [parametersOf, hread, hentries, hshared, hown, bind, Except.bind]

end Contract

/-- A contract with one operation is compiled as soon as that is. -/
theorem Registry.compile_of_single {options : Options} {raw : Json} {contract : Contract}
    {declared : RouteKey × Route} (hcontract : Contract.ofDocument options raw = .ok contract)
    (hdeclarations : contract.declarations = [.ok declared]) :
    Registry.compile options raw = .ok (.ofDeclarations [declared]) := by
  unfold Registry.compile
  rw [hcontract]
  simp only [bind, Except.bind, hdeclarations]
  cases options.strict <;> rfl

end ApiContract
