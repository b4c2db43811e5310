import ApiContract.Validator
import ApiContract.Proofs.Query.Telling
import ApiContract.Proofs.Route.Parameters

/-! # Which declared parameters a query check knows

For the operation that a query is meant for, the names that are told to be unknown or missing come down to
the parameters that it declares: one in force with a schema is known under its name up to case, and missed
where it is required.

* `Contract.exists_entry_of_applies`, `Contract.exists_declared_of_entry`: the declared parameters and the
  table of the route.
* `Validator.checkQuery_declared`: what a check tells, from the declared parameters of an operation.
* `bracketName_unknown`: a declared name that nests, and a parameter without a schema. -/

set_option autoImplicit false

namespace ApiContract

/-! ## Declared parameters -/

namespace Contract

variable {contract : Contract} {base : String} {shared own : List Parameter}
  {entries : List QueryParameter} {parameter : Parameter}

/-- A parameter in force with a schema is in the table under its name in lower case. -/
theorem exists_entry_of_applies
    (h : List.Forall₂ (contract.Enters base) (querySchemas (effectiveParameters shared own)) entries)
    (happlies : Applies shared own parameter) (hquery : parameter.location = .query)
    (hschema : parameter.schema.isSome = true) :
    ∃ entry ∈ entries, entry.name = lowerCase parameter.name ∧ entry.required = parameter.required := by
  obtain ⟨schema, hsome⟩ := Option.isSome_iff_exists.1 hschema
  have hmem := mem_querySchemas.2 ⟨happlies.mem_effectiveParameters, hquery, hsome⟩
  obtain ⟨place, hplace, hsource⟩ := List.getElem_of_mem hmem
  have hentry : place < entries.length := h.length_eq ▸ hplace
  have henters := h.get hplace hentry
  rw [List.get_eq_getElem, hsource] at henters
  exact ⟨_, List.get_mem entries ⟨place, hentry⟩, henters.1, henters.2.1⟩

/-- What is in the table was declared. -/
theorem exists_declared_of_entry
    (h : List.Forall₂ (contract.Enters base) (querySchemas (effectiveParameters shared own)) entries)
    {entry : QueryParameter} (hmem : entry ∈ entries) :
    ∃ parameter ∈ shared ++ own, parameter.location = .query ∧ entry.name = lowerCase parameter.name := by
  obtain ⟨place, hplace, rfl⟩ := List.getElem_of_mem hmem
  have hsource : place < (querySchemas (effectiveParameters shared own)).length :=
    h.length_eq.symm ▸ hplace
  have henters := h.get hsource hplace
  obtain ⟨hdeclared, hquery, -⟩ := mem_querySchemas.1 (List.get_mem _ ⟨place, hsource⟩)
  exact ⟨_, List.mem_append.2 (mem_of_mem_effectiveParameters hdeclared), hquery, henters.1⟩

end Contract

theorem Validator.registry_of_ofDocument {options : Options} {raw : Json} {validator : Validator}
    (h : Validator.ofDocument options raw = .ok validator) :
    Registry.compile options raw = .ok validator.registry := by
  unfold Validator.ofDocument at h
  obtain ⟨registry, hregistry, h⟩ := exists_of_bind_ok h
  cases h
  exact hregistry

/-- A query is told the problems of its fields by the table of the route. -/
theorem Validator.problems_checkQuery (validator : Validator) (path method : String) (strict : Bool)
    (exclusions : List String) (input : Fields) :
    (validator.checkQuery path method strict exclusions input).problems =
      queryErrors strict exclusions (validator.registry.parameters (.of path method))
        (normalizeQuery (validator.registry.coercer? (.of path method)) input) :=
  (QueryOutcome.problems_ofProblems ..).trans (checkFields_eq ..)

section

variable {options : Options} {raw : Json} {contract : Contract} {validator : Validator}
  {operation : DeclaredOperation}

/-- The query of an operation with a key of its own, by the parameters that it declares. One that is in
force and has a schema takes the value of a lone key of its name, and is told to be missing, if it is
required, where no key has its name. A lone key whose name is that of no declared query parameter is told to
be unknown, unless it is excluded. Names are those before brackets, without regard to case. -/
theorem Validator.checkQuery_declared (hstrict : options.strict = true)
    (hcontract : Contract.ofDocument options raw = .ok contract)
    (hvalidator : Validator.ofDocument options raw = .ok validator)
    (hmem : operation ∈ contract.operations)
    (hkey : (contract.operations.map DeclaredOperation.key).count operation.key = 1) :
    ∃ shared own, contract.parametersOf operation = .ok (shared, own) ∧
      (∀ parameter, Applies shared own parameter → parameter.location = .query →
        parameter.schema.isSome = true →
        (Bare parameter.name → ∀ exclusions value name,
          unknownParameter name ∉ (validator.checkQuery operation.path operation.method.name true
            exclusions [(parameter.name, value)]).problems) ∧
        (∀ exclusions key value name, lowerCase (topName key) = lowerCase parameter.name →
          unknownParameter name ∉ (validator.checkQuery operation.path operation.method.name true
            exclusions [(key, value)]).problems) ∧
        (parameter.required = true → ∀ strict exclusions input,
          (∀ field ∈ input, lowerCase (topName field.1) ≠ lowerCase parameter.name) →
            missingParameter (lowerCase parameter.name) ∈ (validator.checkQuery operation.path
              operation.method.name strict exclusions input).problems)) ∧
      ∀ exclusions key value,
        (∀ parameter ∈ shared ++ own, parameter.location = .query →
          lowerCase parameter.name ≠ lowerCase (topName key)) →
        isExcluded exclusions (topName key) = false →
          unknownParameter (topName key) ∈ (validator.checkQuery operation.path operation.method.name true
            exclusions [(key, value)]).problems := by
  have hregistry := Validator.registry_of_ofDocument hvalidator
  obtain ⟨route, hroute, htells⟩ :=
    (Registry.keepsApart_iff hstrict hcontract hregistry).1 operation hmem hkey
  obtain ⟨shared, own, hparameters, henters, -⟩ := Contract.tables_of_routeOf hroute
  have hproblems : ∀ strict exclusions input, (validator.checkQuery operation.path operation.method.name
      strict exclusions input).problems = queryErrors strict exclusions route.parameters
        (normalizeQuery (validator.registry.coercer? operation.key) input) := by
    intro strict exclusions input
    rw [Validator.problems_checkQuery, ← htells.parameters]
    rfl
  refine ⟨shared, own, hparameters, fun parameter happlies hquery hschema => ?_, ?_⟩
  · obtain ⟨entry, hentry, hname, hrequired⟩ :=
      Contract.exists_entry_of_applies henters happlies hquery hschema
    have hknown : ∀ exclusions key value name, lowerCase (topName key) = lowerCase parameter.name →
        unknownParameter name ∉ (validator.checkQuery operation.path operation.method.name true
          exclusions [(key, value)]).problems := by
      intro exclusions key value name hsame hunknown
      rw [hproblems, unknownParameter_mem_of_lone] at hunknown
      obtain ⟨-, -, rfl, hother⟩ := hunknown
      exact hother entry hentry (hname.trans hsame.symm)
    refine ⟨fun hbare exclusions value name => ?_, hknown, ?_⟩
    · exact hknown exclusions parameter.name value name (by rw [topName_of_bare hbare])
    · intro hneeded strict exclusions input hother
      rw [hproblems, missingParameter_mem_queryErrors]
      refine ⟨entry, mem_untaken_of_occurrences hentry ?_, hrequired.trans hneeded, hname⟩
      exact occurrences_normalizeQuery fun field hfield => hname ▸ hother field hfield
  · intro exclusions key value hother hincluded
    rw [hproblems, unknownParameter_mem_of_lone]
    refine ⟨rfl, hincluded, rfl, fun entry hentry hname => ?_⟩
    obtain ⟨parameter, hdeclared, hquery, hsame⟩ := Contract.exists_declared_of_entry henters hentry
    exact hother parameter hdeclared hquery (hsame.symm.trans hname)

end

/-! ## Three parameters -/

def filterParameter : Parameter := ⟨"filter[x]", .query, false, false, some (.object [])⟩

def sortParameter : Parameter := ⟨"sort", .query, true, false, none⟩

def limitDeclared : Parameter := ⟨"limit", .query, true, false, some (.object [])⟩

/-- An operation with a parameter whose name has brackets, one that is described by its content, and a
plain one. -/
def listOperation : Json :=
  .object
    [("parameters", .array
      [.object [("in", .string "query"), ("name", .string "filter[x]"), ("schema", .object [])],
       .object
        [("content", .object [("application/json", .object [("schema", .object [])])]),
         ("in", .string "query"), ("name", .string "sort"), ("required", .bool true)],
       .object
        [("in", .string "query"), ("name", .string "limit"), ("required", .bool true),
         ("schema", .object [])]]),
     ("responses", .object [])]

def listPaths : Fields := [("/a", .object [("get", listOperation)])]

def listContract : Contract := ⟨.object [("paths", .object listPaths)], listPaths, none, .lenient⟩

def listDeclared : DeclaredOperation := ⟨"/a", .get, listOperation, []⟩

theorem listContract_ofDocument :
    Contract.ofDocument .defaults listContract.document = .ok listContract := rfl

theorem listContract_parametersOf : listContract.parametersOf listDeclared =
    .ok ([], [filterParameter, sortParameter, limitDeclared]) := rfl

/-- The table of the operation; the parameter without a schema is not in it. -/
def listEntries : List QueryParameter :=
  [⟨"filter[x]", false, false, ⟨"#/paths/a/get/parameters/filter[x]", .object [], false⟩⟩,
   ⟨"limit", true, false, ⟨"#/paths/a/get/parameters/limit", .object [], false⟩⟩]

def listRoute : Route :=
  ⟨"/a", none, [], listEntries,
    listContract.coercerOf [(filterParameter, .object []), (limitDeclared, .object [])]⟩

def listValidator : Validator := ⟨.ofDeclarations [(.of "/a" "get", listRoute)], .defaults⟩

theorem listContract_compileParameters :
    listContract.compileParameters "#/paths/a/get"
      [(filterParameter, .object []), (limitDeclared, .object [])] = .ok listEntries := by
  have hfilter : listContract.compileSchema "#/paths/a/get/parameters/filter[x]" (.object []) =
      .ok ⟨"#/paths/a/get/parameters/filter[x]", .object [], false⟩ := CompiledSchema.compile_anything _
  have hlimit : listContract.compileSchema "#/paths/a/get/parameters/limit" (.object []) =
      .ok ⟨"#/paths/a/get/parameters/limit", .object [], false⟩ := CompiledSchema.compile_anything _
  have hfilterName : lowerCase filterParameter.name = "filter[x]" := by decide +kernel
  have hlimitName : lowerCase limitDeclared.name = "limit" := by decide +kernel
  show (listContract.compileSchema "#/paths/a/get/parameters/filter[x]" (.object []) >>= fun _ => _) = _
  rw [hfilter]
  show ((listContract.compileSchema "#/paths/a/get/parameters/limit" (.object []) >>= fun _ => _) >>=
    fun _ => _) = _
  rw [hlimit]
  show Except.ok [QueryParameter.mk (lowerCase filterParameter.name) _ _ _,
    QueryParameter.mk (lowerCase limitDeclared.name) _ _ _] = _
  rw [hfilterName, hlimitName]
  rfl

theorem listContract_routeOf : listContract.routeOf listDeclared = .ok listRoute := by
  show (listContract.compileParameters "#/paths/a/get"
    [(filterParameter, .object []), (limitDeclared, .object [])] >>= fun _ => _) = _
  rw [listContract_compileParameters]
  rfl

theorem listValidator_ofDocument :
    Validator.ofDocument .defaults listContract.document = .ok listValidator := by
  have hdeclarations : listContract.declarations = [.ok (.of "/a" "get", listRoute)] := by
    show [(listContract.routeOf listDeclared).map _] = _
    rw [listContract_routeOf]
    rfl
  rw [Validator.ofDocument, Registry.compile_of_single listContract_ofDocument hdeclarations]
  rfl

/-- The plain parameter is known and missed, and no other name is known. -/
theorem limitDeclared_known :
    (∀ exclusions value name, unknownParameter name ∉
      (listValidator.checkQuery "/a" "get" true exclusions [("limit", value)]).problems) ∧
    (∀ strict exclusions, missingParameter "limit" ∈
      (listValidator.checkQuery "/a" "get" strict exclusions []).problems) ∧
    ∀ value, unknownParameter "size" ∈
      (listValidator.checkQuery "/a" "get" true [] [("size", value)]).problems := by
  have hmem : listDeclared ∈ listContract.operations := List.mem_singleton.2 rfl
  have hkey : (listContract.operations.map DeclaredOperation.key).count listDeclared.key = 1 := by
    decide +kernel
  have hstrict : Options.defaults.strict = true := rfl
  obtain ⟨shared, own, hparameters, hdeclared, hother⟩ := Validator.checkQuery_declared hstrict
    listContract_ofDocument listValidator_ofDocument hmem hkey
  cases hparameters.symm.trans listContract_parametersOf
  have happlies : Applies [] [filterParameter, sortParameter, limitDeclared] limitDeclared :=
    .inl ⟨[filterParameter, sortParameter], [], rfl, by simp⟩
  have hbare : Bare limitDeclared.name := ⟨by decide +kernel, by decide +kernel⟩
  have hname : lowerCase limitDeclared.name = "limit" := by decide +kernel
  obtain ⟨hknown, -, hmissing⟩ := hdeclared limitDeclared happlies rfl rfl
  refine ⟨hknown hbare, fun strict exclusions => ?_, fun value => ?_⟩
  · have hempty := hmissing rfl strict exclusions [] (by simp)
    rwa [hname] at hempty
  · have htop : topName "size" = "size" := by decide +kernel
    have hsize := hother [] "size" value (by rw [htop]; decide +kernel) rfl
    rwa [htop] at hsize

/-- A value for the name with brackets comes under another name, which is not declared. The parameter
without a schema is neither known nor missed. -/
theorem bracketName_unknown :
    ∃ contract validator operation own, Options.defaults.strict = true ∧
      Contract.ofDocument .defaults listContract.document = .ok contract ∧
      Validator.ofDocument .defaults listContract.document = .ok validator ∧
      operation ∈ contract.operations ∧ contract.parametersOf operation = .ok ([], own) ∧
      (Applies [] own filterParameter ∧ filterParameter.location = .query ∧
        unknownParameter "filter" ∈ (validator.checkQuery operation.path operation.method.name true []
          [(filterParameter.name, .string "1")]).problems) ∧
      Applies [] own sortParameter ∧ sortParameter.location = .query ∧ sortParameter.required = true ∧
      unknownParameter "sort" ∈ (validator.checkQuery operation.path operation.method.name true []
        [(sortParameter.name, .string "1")]).problems ∧
      missingParameter (lowerCase sortParameter.name) ∉
        (validator.checkQuery operation.path operation.method.name true [] []).problems := by
  have hproblems : ∀ input, (listValidator.checkQuery "/a" "get" true [] input).problems =
      queryErrors true [] listEntries
        (normalizeQuery (listValidator.registry.coercer? (.of "/a" "get")) input) := by
    intro input
    have hentries : listValidator.registry.parameters (.of "/a" "get") = listEntries := by
      simp [listValidator, Registry.ofDeclarations, Registry.declare, Registry.parameters, Registry.get?,
        listRoute]
    rw [← hentries]
    exact Validator.problems_checkQuery ..
  have hunknown : ∀ key top value, topName key = top →
      (∀ entry ∈ listEntries, entry.name ≠ lowerCase top) →
        unknownParameter top ∈ (listValidator.checkQuery "/a" "get" true [] [(key, value)]).problems := by
    rintro key top value rfl hother
    rw [hproblems, unknownParameter_mem_of_lone]
    exact ⟨rfl, rfl, rfl, hother⟩
  refine ⟨listContract, listValidator, listDeclared, [filterParameter, sortParameter, limitDeclared], rfl,
    listContract_ofDocument, listValidator_ofDocument, List.mem_singleton.2 rfl, listContract_parametersOf,
    ⟨.inl ⟨[], [sortParameter, limitDeclared], rfl, by decide +kernel⟩, rfl, ?_⟩,
    .inl ⟨[filterParameter], [limitDeclared], rfl, by decide +kernel⟩, rfl, rfl, ?_, ?_⟩
  · exact hunknown _ _ _ (by decide +kernel) (by decide +kernel)
  · exact hunknown _ _ _ (by decide +kernel) (by decide +kernel)
  · have hsort : ∀ entry ∈ listEntries, entry.name ≠ lowerCase sortParameter.name := by decide +kernel
    intro hmissing
    have hmissing : missingParameter (lowerCase sortParameter.name) ∈
        (listValidator.checkQuery "/a" "get" true [] []).problems := hmissing
    rw [hproblems, missingParameter_mem_queryErrors] at hmissing
    obtain ⟨entry, huntaken, -, hname⟩ := hmissing
    exact hsort entry (mem_of_mem_untaken huntaken) hname

end ApiContract
