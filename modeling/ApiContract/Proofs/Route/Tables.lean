import ApiContract.Proofs.Query.Dereferencing
import ApiContract.Proofs.Route.Parameters

/-! # The parameter tables of a route

A route has a table of query parameters and a coercer with their schemas. Parameters are put over each other
by their exact names, values are taken by names in lower case, and of several schemas for one such name the
coercer has the last. The three fit together as long as no two names differ in case alone, and none is
shared twice.

* `DistinctNames`: this of the declared query parameters.
* `nodup_lowerCase_iff`: the names in the table are then different, and only then.
* `TablesAgree`: a table and a coercer that fit together.
* `Registry.tablesAgree`: the tables of every route.
* `casedNames_disagree`: names that differ in case. -/

set_option autoImplicit false

namespace ApiContract

open Contract

/-! ## Names -/

/-- The names of the query parameters. -/
def queryNames (parameters : List Parameter) : List String :=
  (parameters.filter fun parameter => parameter.location = .query).map Parameter.name

/-- No query parameter is shared twice, and no two have names that differ in case alone. -/
def DistinctNames (shared own : List Parameter) : Prop :=
  (queryNames shared).Nodup ∧
    ∀ first ∈ queryNames (shared ++ own), ∀ second ∈ queryNames (shared ++ own),
      lowerCase first = lowerCase second → first = second

section

variable {name : String} {parameter : Parameter} {parameters shared own : List Parameter}

theorem mem_queryNames : name ∈ queryNames parameters ↔
    ∃ parameter ∈ parameters, parameter.location = .query ∧ parameter.name = name := by
  simp [queryNames, and_assoc]

theorem signature_eq_iff : parameter.signature = (name, .query) ↔
    parameter.location = .query ∧ parameter.name = name := by
  rw [Parameter.signature, Prod.mk.injEq, and_comm]

theorem count_queryNames (name : String) (parameters : List Parameter) :
    (queryNames parameters).count name = (signed (name, .query) parameters).length := by
  rw [queryNames, signed, List.count_eq_countP, List.countP_map, List.countP_filter,
    List.countP_eq_length_filter]
  refine congrArg List.length (List.filter_congr fun parameter _ => ?_)
  rw [Function.comp_apply, Bool.eq_iff_iff, Bool.and_eq_true, decide_eq_true_eq, decide_eq_true_eq,
    signature_eq_iff, beq_iff_eq, and_comm]

theorem mem_queryNames_effectiveParameters : name ∈ queryNames (effectiveParameters shared own) ↔
    name ∈ queryNames (shared ++ own) := by
  rw [← List.count_pos_iff, ← List.count_pos_iff, count_queryNames, count_queryNames,
    signed_effectiveParameters, signed_append, List.length_append]
  cases hlast : (signed (name, .query) own).getLast? with
  | none =>
    rw [List.getLast?_eq_none_iff.1 hlast]
    rfl
  | some last =>
    have hown := List.length_pos_of_mem (List.mem_of_getLast? hlast)
    simp only [List.length_cons]
    omega

theorem nodup_queryNames_effectiveParameters :
    (queryNames (effectiveParameters shared own)).Nodup ↔ (queryNames shared).Nodup := by
  rw [List.nodup_iff_count_le_one, List.nodup_iff_count_le_one]
  refine forall_congr' fun name => ?_
  rw [count_queryNames, count_queryNames, signed_effectiveParameters]
  cases (signed (name, .query) own).getLast? with
  | none => rfl
  | some last =>
    simp only [List.length_cons, List.length_tail]
    omega

/-- The parameters in force have different names in lower case exactly if the declared ones are told
apart. -/
theorem nodup_lowerCase_iff :
    ((queryNames (effectiveParameters shared own)).map lowerCase).Nodup ↔ DistinctNames shared own := by
  constructor
  · intro h
    refine ⟨nodup_queryNames_effectiveParameters.1 h.of_map, fun first hfirst second hsecond => ?_⟩
    exact List.inj_on_of_nodup_map h (mem_queryNames_effectiveParameters.2 hfirst)
      (mem_queryNames_effectiveParameters.2 hsecond)
  · rintro ⟨hshared, hcase⟩
    refine (nodup_queryNames_effectiveParameters.2 hshared).map_on fun first hfirst second hsecond => ?_
    exact hcase first (mem_queryNames_effectiveParameters.1 hfirst) second
      (mem_queryNames_effectiveParameters.1 hsecond)

/-! ## Sources of a table -/

theorem names_querySchemas_sublist (parameters : List Parameter) :
    ((querySchemas parameters).map fun source => source.1.name).Sublist (queryNames parameters) := by
  induction parameters with
  | nil => exact .slnil
  | cons first rest ih =>
    rw [querySchemas, queryNames] at ih ⊢
    rw [List.filterMap_cons, List.filter_cons]
    by_cases hquery : first.location = .query
    · rw [if_pos hquery, if_pos (decide_eq_true hquery), List.map_cons]
      cases first.schema with
      | none => exact ih.cons _
      | some schema => exact ih.cons_cons _
    · rw [if_neg hquery, if_neg (by simpa using hquery)]
      exact ih

theorem names_querySchemas (h : ∀ parameter ∈ parameters, parameter.location = .query →
    parameter.schema.isSome = true) :
    (querySchemas parameters).map (fun source => source.1.name) = queryNames parameters := by
  induction parameters with
  | nil => rfl
  | cons first rest ih =>
    have hrest := ih fun parameter hmem => h parameter (List.mem_cons_of_mem _ hmem)
    rw [querySchemas, queryNames] at hrest ⊢
    rw [List.filterMap_cons, List.filter_cons]
    by_cases hquery : first.location = .query
    · obtain ⟨schema, hschema⟩ := Option.isSome_iff_exists.1 (h first List.mem_cons_self hquery)
      rw [if_pos hquery, if_pos (decide_eq_true hquery), hschema, List.map_cons]
      exact congrArg (first.name :: ·) hrest
    · rw [if_neg hquery, if_neg (by simpa using hquery)]
      exact hrest

/-- A declared query parameter of the operation stands in for all of its name, if those are told apart. -/
theorem DistinctNames.mem_own (h : DistinctNames shared own) {declared : Parameter}
    (hdeclared : declared ∈ own) (hquery : declared.location = .query)
    (hparameter : parameter ∈ effectiveParameters shared own) (hlocation : parameter.location = .query)
    (hname : lowerCase parameter.name = lowerCase declared.name) : parameter ∈ own := by
  have hmem : parameter.name ∈ queryNames (shared ++ own) :=
    mem_queryNames_effectiveParameters.1 (mem_queryNames.2 ⟨parameter, hparameter, hlocation, rfl⟩)
  have hsame := h.2 parameter.name hmem declared.name
    (mem_queryNames.2 ⟨declared, List.mem_append_right _ hdeclared, hquery, rfl⟩) hname
  have hsigned : parameter ∈ signed (parameter.name, .query) (effectiveParameters shared own) :=
    mem_signed.2 ⟨hparameter, signature_eq_iff.2 ⟨hlocation, rfl⟩⟩
  have hown : declared ∈ signed (parameter.name, .query) own :=
    mem_signed.2 ⟨hdeclared, signature_eq_iff.2 ⟨hquery, hsame.symm⟩⟩
  have hshared := List.nodup_iff_count_le_one.1 h.1 parameter.name
  rw [count_queryNames] at hshared
  rw [signed_effectiveParameters] at hsigned
  cases hlast : (signed (parameter.name, .query) own).getLast? with
  | none =>
    rw [List.getLast?_eq_none_iff.1 hlast] at hown
    cases hown
  | some last =>
    rw [hlast] at hsigned
    have htail : (signed (parameter.name, .query) shared).tail = [] :=
      List.eq_nil_of_length_eq_zero (by rw [List.length_tail]; omega)
    simp only [htail, List.mem_singleton] at hsigned
    rw [hsigned]
    exact (mem_signed.1 (List.mem_of_getLast? hlast)).1

end

/-! ## Coercers -/

theorem Fields.get?_ofList {entries : List (String × Json)} {key : String} {value : Json}
    (h : (entries.map Prod.fst).Nodup) (hmem : (key, value) ∈ entries) :
    (Fields.ofList entries).get? key = some value := by
  induction entries using List.reverseRecOn with
  | nil => cases hmem
  | append_singleton earlier last ih =>
    rw [List.map_append, List.nodup_append] at h
    obtain ⟨hearlier, -, hapart⟩ := h
    rw [ofList, List.foldl_append, List.foldl_cons, List.foldl_nil, ← ofList, get?_insert]
    rcases List.mem_append.1 hmem with hmem | hmem
    · rw [if_neg, ih hearlier hmem]
      exact fun hsame => hapart key (List.mem_map_of_mem hmem) _ (List.mem_singleton_self _) hsame.symm
    · rw [← List.mem_singleton.1 hmem, if_pos rfl]

theorem Contract.get?_coercerOf {contract : Contract} {sources : List (Parameter × Json)}
    {source : Parameter × Json} (henabled : contract.coercion.isEnabled = true)
    (hnames : (sources.map fun source => lowerCase source.1.name).Nodup) (hmem : source ∈ sources) :
    ∃ coercer, contract.coercerOf sources = some coercer ∧
      coercer.schemas.get? (lowerCase source.1.name) = some (inlineSchema contract.document source.2) := by
  have hsome : sources.isEmpty = false := by
    cases sources with
    | nil => cases hmem
    | cons _ _ => rfl
  rw [coercerOf, henabled, hsome]
  refine ⟨_, rfl, ?_⟩
  rw [Coercer.ofSchemas, List.map_map]
  refine Fields.get?_ofList ?_ (List.mem_map.2 ⟨source, hmem, rfl⟩)
  rw [List.map_map]
  exact hnames

/-! ## Tables of a route -/

/-- A route as it is compiled: there is a coercer if there are parameters to coerce for. -/
def Route.IsPaired (route : Route) (enabled : Bool) : Prop :=
  route.coercer.isSome = (enabled && !route.parameters.isEmpty)

/-- The parameters and the coercer that are told of a key are those of one declaration. -/
theorem exists_of_layered {enabled : Bool} {routes : List Route} {entry : Route}
    (h : Registry.layered routes = some entry) (hroutes : ∀ route ∈ routes, route.IsPaired enabled) :
    ∃ route ∈ routes, entry.parameters = route.parameters ∧ entry.coercer = route.coercer := by
  induction routes generalizing entry with
  | nil => cases h
  | cons route earlier ih =>
    rw [Registry.layered] at h
    have hpaired := hroutes route List.mem_cons_self
    cases hknown : Registry.layered earlier with
    | none =>
      rw [hknown] at h
      cases h
      exact ⟨route, List.mem_cons_self, rfl, rfl⟩
    | some known =>
      rw [hknown] at h
      cases h
      obtain ⟨other, hother, hparameters, hcoercer⟩ :=
        ih hknown fun other hmem => hroutes other (List.mem_cons_of_mem _ hmem)
      have hothers := hroutes other (List.mem_cons_of_mem _ hother)
      rw [Route.IsPaired] at hpaired hothers
      rw [Option.elim_some, Route.over]
      by_cases hempty : route.parameters.isEmpty = true
      · have hnone : route.coercer = none := by
          rw [hempty, Bool.not_true, Bool.and_false, Option.isSome_eq_false_iff,
            Option.isNone_iff_eq_none] at hpaired
          exact hpaired
        refine ⟨other, List.mem_cons_of_mem _ hother, ?_, ?_⟩
        · rw [if_pos hempty, hparameters]
        · rw [hnone, Option.none_or, hcoercer]
      · refine ⟨route, List.mem_cons_self, if_neg hempty, ?_⟩
        cases hown : route.coercer with
        | some coercer => rfl
        | none =>
          rw [Bool.not_eq_true] at hempty
          rw [hown, hempty, Bool.not_false, Bool.and_true] at hpaired
          rw [← hpaired, Option.isSome_none, Bool.false_and, Option.isSome_eq_false_iff,
            Option.isNone_iff_eq_none] at hothers
          rw [Option.none_or, hcoercer, hothers]

/-- What a table and a coercer have to have in common: every parameter has a name of its own, the schema
under its name is its own one, dereferenced, and the operation has its own parameters. -/
structure TablesAgree (contract : Contract) (own : List Parameter) (sources : List (Parameter × Json))
    (entries : List QueryParameter) (coercer : Option Coercer) : Prop where
  distinct : (entries.map QueryParameter.name).Nodup
  coerced : contract.coercion.isEnabled = true → ∀ source ∈ sources, ∃ given, coercer = some given ∧
    given.schemas.get? (lowerCase source.1.name) = some (inlineSchema contract.document source.2)
  own : ∀ declared ∈ own, declared.location = .query → ∀ source ∈ sources,
    lowerCase source.1.name = lowerCase declared.name → source.1 ∈ own

section

variable {options : Options} {raw : Json} {contract : Contract} {registry : Registry} {key : RouteKey}
  {route : Route}

theorem Contract.names_of_enters {base : String} {sources : List (Parameter × Json)}
    {entries : List QueryParameter} (h : List.Forall₂ (contract.Enters base) sources entries) :
    entries.map QueryParameter.name = sources.map fun source => lowerCase source.1.name := by
  induction h with
  | nil => rfl
  | cons hone _ ih => rw [List.map_cons, List.map_cons, ih, hone.1]

theorem Registry.eq_ofDeclarations (hcontract : Contract.ofDocument options raw = .ok contract)
    (hregistry : Registry.compile options raw = .ok registry) :
    registry = .ofDeclarations contract.compiled := by
  have hlenient : Registry.compile { options with strict := false } raw = .ok registry := by
    cases hstrict : options.strict with
    | false => rwa [← hstrict]
    | true =>
      refine (Registry.compile_strict_lenient options raw).1 registry ?_
      rwa [← hstrict]
  rw [Registry.compile_leniently hcontract] at hlenient
  exact (Except.ok.inj hlenient).symm

theorem Contract.isPaired_of_routeOf {operation : DeclaredOperation}
    (h : contract.routeOf operation = .ok route) : route.IsPaired contract.coercion.isEnabled := by
  obtain ⟨shared, own, -, henters, hcoercer⟩ := Contract.tables_of_routeOf h
  have hempty : (querySchemas (effectiveParameters shared own)).isEmpty = route.parameters.isEmpty := by
    rw [Bool.eq_iff_iff, List.isEmpty_iff_length_eq_zero, List.isEmpty_iff_length_eq_zero,
      henters.length_eq]
  rw [Route.IsPaired, hcoercer, coercerOf, hempty]
  split <;> simp_all

/-- The table and the coercer of every route come from one of the operations of its key, and the table from
its declared parameters one by one. They agree if the names of these are distinct; where all declared query
parameters have schemas, the names in the table are different only then. -/
theorem Registry.tablesAgree (hcontract : Contract.ofDocument options raw = .ok contract)
    (hregistry : Registry.compile options raw = .ok registry) (hroute : registry.get? key = some route) :
    ∃ operation ∈ contract.operations, operation.key = key ∧
      ∃ shared own, contract.parametersOf operation = .ok (shared, own) ∧
        List.Forall₂ (contract.Enters (schemaBase operation.path operation.method.name))
          (querySchemas (effectiveParameters shared own)) (registry.parameters key) ∧
        (DistinctNames shared own →
          TablesAgree contract own (querySchemas (effectiveParameters shared own))
            (registry.parameters key) (registry.coercer? key)) ∧
        ((∀ parameter ∈ shared ++ own, parameter.location = .query → parameter.schema.isSome = true) →
          ((registry.parameters key).map QueryParameter.name).Nodup → DistinctNames shared own) := by
  cases Registry.eq_ofDeclarations hcontract hregistry
  have hentry := hroute
  rw [Registry.get?_ofDeclarations] at hentry
  have hyields : ∀ declared ∈ Registry.declaredUnder key contract.compiled, contract.Yields key declared :=
    fun declared hmem => Contract.mem_compiled.1 (Registry.mem_declaredUnder.1 hmem)
  obtain ⟨declared, hdeclared, hparameters, hcoercer⟩ := exists_of_layered hentry fun declared hmem => by
    obtain ⟨_, -, -, hcompiled⟩ := hyields declared hmem
    exact Contract.isPaired_of_routeOf hcompiled
  obtain ⟨operation, hmem, hkey, hcompiled⟩ := hyields declared hdeclared
  obtain ⟨shared, own, hdeclares, henters, hown⟩ := Contract.tables_of_routeOf hcompiled
  have htells := Registry.tellsOf_of_get? hroute
  rw [htells.parameters, htells.coercer, hparameters, hcoercer, hown]
  refine ⟨operation, hmem, hkey, shared, own, hdeclares, henters, fun hdistinct => ?_, fun hall hnodup => ?_⟩
  · have hnames : ((querySchemas (effectiveParameters shared own)).map
        fun source => lowerCase source.1.name).Nodup := by
      have hlower := (names_querySchemas_sublist (effectiveParameters shared own)).map lowerCase
      rw [List.map_map] at hlower
      exact hlower.nodup (nodup_lowerCase_iff.2 hdistinct)
    refine ⟨Contract.names_of_enters henters ▸ hnames, fun henabled source hsource =>
      Contract.get?_coercerOf henabled hnames hsource, fun parameter hparameter hquery source hsource => ?_⟩
    obtain ⟨heffective, hlocation, -⟩ := mem_querySchemas.1 hsource
    exact hdistinct.mem_own hparameter hquery heffective hlocation
  · rw [Contract.names_of_enters henters] at hnodup
    have heffective : ∀ parameter ∈ effectiveParameters shared own, parameter.location = .query →
        parameter.schema.isSome = true := fun parameter hparameter =>
      hall parameter (List.mem_append.2 (mem_of_mem_effectiveParameters hparameter))
    rw [← nodup_lowerCase_iff, ← names_querySchemas heffective, List.map_map]
    exact hnodup

end

/-! ## A shared parameter and an own one -/

/-- A schema that asks nothing, and tells of an example. -/
def exampleSchema : Json := .object [("example", .bool true)]

theorem CompiledSchema.compile_exampleSchema (name : String) :
    CompiledSchema.compile name exampleSchema none = .ok ⟨name, exampleSchema, false⟩ := by
  have hforeign : foreignFault? exampleSchema = none := by
    unfold foreignFault? exampleSchema
    rw [nestedSchemas]
    rfl
  have hmeta : metaFault? exampleSchema = none := by
    unfold metaFault? Evaluation.findings metaSchema
    rw [Evaluation.findingsWith]
    rfl
  have hkeywords : keywordFault? exampleSchema = none := by
    unfold keywordFault? exampleSchema
    rw [checkKeywords]
    rfl
  have hreaches : reachesDiscriminator exampleSchema = false := by
    unfold reachesDiscriminator exampleSchema
    rw [withoutComponents, searchCases]
    rfl
  have hroot : rootOf exampleSchema none = exampleSchema := rfl
  rw [compile_of_faultless hroot hforeign hmeta hkeywords, hreaches]

/-- A query parameter with a schema, as it is read and as it is written. -/
def optionalParameter (name : String) (schema : Json) : Parameter :=
  ⟨name, .query, false, false, some schema⟩

def optionalJson (name : String) (schema : Json) : Json :=
  .object [("in", .string "query"), ("name", .string name), ("schema", schema)]

def pageOperation : DeclaredOperation where
  path := "/a"
  method := .get
  raw := .object
    [("parameters", .array [optionalJson "limit" (.object [])]), ("responses", .object [])]
  shared := []

def pageOperationWith (name : String) : DeclaredOperation :=
  { pageOperation with shared := [optionalJson name exampleSchema] }

/-- The paths of an operation with the parameter `limit`, beside a shared one. -/
def pagePaths (name : String) : Fields :=
  [("/a", .object
    [("get", pageOperation.raw), ("parameters", .array [optionalJson name exampleSchema])])]

def pageContract (name : String) : Contract :=
  ⟨.object [("paths", .object (pagePaths name))], pagePaths name, none, .lenient⟩

def pageSources (name : String) : List (Parameter × Json) :=
  [(optionalParameter name exampleSchema, exampleSchema),
   (optionalParameter "limit" (.object []), .object [])]

def pageEntries (name : String) : List QueryParameter :=
  [⟨lowerCase name, false, false, ⟨"#/paths/a/get/parameters/" ++ name, exampleSchema, false⟩⟩,
   ⟨"limit", false, false, ⟨"#/paths/a/get/parameters/limit", .object [], false⟩⟩]

def pageRoute (name : String) : Route :=
  ⟨"/a", none, [], pageEntries name, (pageContract name).coercerOf (pageSources name)⟩

def pageRegistry (name : String) : Registry := .ofDeclarations [(.of "/a" "get", pageRoute name)]

theorem pageContract_ofDocument {name : String} (h : name = "Limit" ∨ name = "offset") :
    Contract.ofDocument .defaults (pageContract name).document = .ok (pageContract name) := by
  rcases h with rfl | rfl <;> rfl

theorem pageContract_parametersOf {name : String} (h : name = "Limit" ∨ name = "offset") :
    (pageContract name).parametersOf (pageOperationWith name) =
      .ok ([optionalParameter name exampleSchema], [optionalParameter "limit" (.object [])]) := by
  rcases h with rfl | rfl <;> rfl

theorem pageContract_compileParameters (name : String) :
    (pageContract name).compileParameters "#/paths/a/get" (pageSources name) = .ok (pageEntries name) := by
  have hshared : (pageContract name).compileSchema ("#/paths/a/get" ++ "/parameters/" ++ name)
      exampleSchema = .ok ⟨"#/paths/a/get/parameters/" ++ name, exampleSchema, false⟩ :=
    CompiledSchema.compile_exampleSchema _
  have hlimit : (pageContract name).compileSchema "#/paths/a/get/parameters/limit" (.object []) =
      .ok ⟨"#/paths/a/get/parameters/limit", .object [], false⟩ := CompiledSchema.compile_anything _
  have hname : lowerCase "limit" = "limit" := by decide +kernel
  show ((pageContract name).compileSchema ("#/paths/a/get" ++ "/parameters/" ++ name) exampleSchema >>=
    fun _ => _) = _
  rw [hshared]
  show (((pageContract name).compileSchema "#/paths/a/get/parameters/limit" (.object []) >>= fun _ => _) >>=
    fun _ => _) = _
  rw [hlimit]
  show Except.ok [QueryParameter.mk (lowerCase name) _ _ _, QueryParameter.mk (lowerCase "limit") _ _ _] = _
  rw [hname]
  rfl

theorem pageContract_routeOf {name : String} (h : name = "Limit" ∨ name = "offset") :
    (pageContract name).routeOf (pageOperationWith name) = .ok (pageRoute name) := by
  have hparameters := pageContract_compileParameters name
  rcases h with rfl | rfl
  · show ((pageContract "Limit").compileParameters "#/paths/a/get" (pageSources "Limit") >>= fun _ => _) = _
    rw [hparameters]
    rfl
  · show ((pageContract "offset").compileParameters "#/paths/a/get" (pageSources "offset") >>= fun _ => _) = _
    rw [hparameters]
    rfl

theorem pageContract_compile {name : String} (h : name = "Limit" ∨ name = "offset") :
    Registry.compile .defaults (pageContract name).document = .ok (pageRegistry name) := by
  refine Registry.compile_of_single (pageContract_ofDocument h) ?_
  show [((pageContract name).routeOf (pageOperationWith name)).map _] = _
  rw [pageContract_routeOf h]
  rfl

theorem pageRegistry_get? (name : String) :
    (pageRegistry name).get? (.of "/a" "get") = some (pageRoute name) := by
  simp [pageRegistry, Registry.ofDeclarations, Registry.declare, Registry.get?]

/-- With another name the tables agree. -/
theorem offsetParameter_tablesAgree :
    TablesAgree (pageContract "offset") [optionalParameter "limit" (.object [])] (pageSources "offset")
      ((pageRegistry "offset").parameters (.of "/a" "get"))
      ((pageRegistry "offset").coercer? (.of "/a" "get")) := by
  have hoffset : "offset" = "Limit" ∨ "offset" = "offset" := .inr rfl
  obtain ⟨operation, hmem, -, shared, own, hparameters, -, hagree, -⟩ := Registry.tablesAgree
    (pageContract_ofDocument hoffset) (pageContract_compile hoffset) (pageRegistry_get? "offset")
  have honly : (pageContract "offset").operations = [pageOperationWith "offset"] := rfl
  rw [honly, List.mem_singleton] at hmem
  subst hmem
  cases hparameters.symm.trans (pageContract_parametersOf hoffset)
  refine hagree ⟨List.nodup_singleton _, ?_⟩
  show ∀ first ∈ ["offset", "limit"], ∀ second ∈ ["offset", "limit"], lowerCase first = lowerCase second →
    first = second
  decide +kernel

/-- A shared parameter `Limit` beside the own parameter `limit`: both are in the table under one name, and
the coercer has the schema of the second for the first, which the operation does not declare. -/
theorem casedNames_disagree :
    Contract.ofDocument .defaults (pageContract "Limit").document = .ok (pageContract "Limit") ∧
    Registry.compile .defaults (pageContract "Limit").document = .ok (pageRegistry "Limit") ∧
    (pageContract "Limit").parametersOf (pageOperationWith "Limit") =
      .ok ([optionalParameter "Limit" exampleSchema], [optionalParameter "limit" (.object [])]) ∧
    (pageContract "Limit").coercion.isEnabled = true ∧
    ((pageRegistry "Limit").parameters (.of "/a" "get")).map QueryParameter.name = ["limit", "limit"] ∧
    ∃ entry coercer, ((pageRegistry "Limit").parameters (.of "/a" "get")).head? = some entry ∧
      (pageContract "Limit").Enters "#/paths/a/get" (optionalParameter "Limit" exampleSchema, exampleSchema)
        entry ∧
      (pageRegistry "Limit").coercer? (.of "/a" "get") = some coercer ∧
      coercer.schemas.get? entry.name = some (.object []) ∧
      inlineSchema (pageContract "Limit").document exampleSchema = exampleSchema := by
  have hLimit : "Limit" = "Limit" ∨ "Limit" = "offset" := .inl rfl
  have hlower : lowerCase "Limit" = "limit" := by decide +kernel
  have hsame : lowerCase "limit" = "limit" := by decide +kernel
  have htells := Registry.tellsOf_of_get? (pageRegistry_get? "Limit")
  have henters := Contract.enters_of_compileParameters (pageContract_compileParameters "Limit")
  have hexample : inlineSchema (pageContract "Limit").document exampleSchema = exampleSchema :=
    inlineWith_of_inline rfl
  have hcoercer : (pageRegistry "Limit").coercer? (.of "/a" "get") =
      some (.ofSchemas .lenient [("Limit", exampleSchema), ("limit", .object [])]) := by
    have hempty : inlineSchema (pageContract "Limit").document (.object []) = .object [] :=
      inlineWith_of_inline rfl
    rw [htells.coercer]
    show some (Coercer.ofSchemas .lenient
      [("Limit", inlineSchema (pageContract "Limit").document exampleSchema),
        ("limit", inlineSchema (pageContract "Limit").document (.object []))]) = _
    rw [hexample, hempty]
  have hschemas : (Fields.ofList [(lowerCase "Limit", exampleSchema), (lowerCase "limit", .object [])]).get?
      (lowerCase "Limit") = some (.object []) := by
    rw [hlower, hsame]
    rfl
  refine ⟨pageContract_ofDocument hLimit, pageContract_compile hLimit, pageContract_parametersOf hLimit, rfl,
    ?_, _, _, by rw [htells.parameters]; rfl, (List.forall₂_cons.1 henters).1, hcoercer, hschemas, hexample⟩
  rw [htells.parameters]
  show [lowerCase "Limit", "limit"] = _
  rw [hlower]

end ApiContract
