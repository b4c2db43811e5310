import ApiContract.Validator
import ApiContract.Proofs.Definition.Lookup
import ApiContract.Proofs.Preparation.Unlisted
import ApiContract.Proofs.Route.Failing

/-! # Where invalid definitions are

A definition that cannot be read is reported with its place: that of a path item, of an operation or of a
parameter in it, or the reference that led to a component. The place is a reference into the prepared
document, and what it is resolved to cannot be read for the reason that is reported. A path item may be
written as the list of its fields; the places in such a list are named all the same and lead nowhere.

* `DefinitionKind`, `IsCulprit`: what stands at a place and cannot be read.
* `paths_of_decodeDocument`, `operation_of_decodePathItem`, `parameters_of_decodePathItem`: where the parts
  of a document and of a path item come from.
* `isCulprit_or_withinList`: the place of an invalid definition, path by path.
* `Validator.invalidDefinition_located`: the place that strict compilation reports. -/

set_option autoImplicit false

namespace ApiContract

/-! ## Definitions by their place -/

/-- What a definition is read as. -/
inductive DefinitionKind where
  | pathItem | operation | parameter | requestBody | response
deriving DecidableEq, Repr

namespace DefinitionKind

/-- Why a value cannot be read as a definition of a kind. -/
def failure? : DefinitionKind → Json → Option String
  | pathItem, value => reason? (decodePathItem value)
  | operation, value => reason? (decodeOperation value)
  | parameter, value => ApiContract.failure? decodeParameter value
  | requestBody, value => ApiContract.failure? decodeRequestBody value
  | response, value => ApiContract.failure? decodeResponse value
where
  reason? {α : Type} : Decoded α → Option String
    | .ok _ => none
    | .error e => some e.message

/-- The kind of definition that stands where steps lead from the root of a document. -/
inductive IsAt : List String → DefinitionKind → Prop where
  | pathItem (path : String) : IsAt ["paths", path] pathItem
  | operation (path : String) (method : Method) : IsAt ["paths", path, method.name] operation
  | shared (path place : String) : IsAt ["paths", path, "parameters", place] parameter
  | requestBody (name : String) : IsAt ["components", Bucket.requestBodies.name, name] requestBody
  | response (name : String) : IsAt ["components", Bucket.responses.name, name] response
  | parameter (name : String) : IsAt ["components", Bucket.parameters.name, name] parameter

end DefinitionKind

/-- The definition at a place of a document cannot be read, for a reason. -/
def IsCulprit (document : Json) (location reason : String) : Prop :=
  ∃ steps kind value, pointerSteps? location = some steps ∧ DefinitionKind.IsAt steps kind ∧
    document.resolve? location = some value ∧ kind.failure? value = some reason

/-- A place is within a path item that is a list. -/
def WithinList (document : Json) (location : String) : Prop :=
  ∃ path step rest items, pointerSteps? location = some ("paths" :: path :: step :: rest) ∧
    document.follow? ["paths", path] = some (.array items)

/-! ## Places of path items -/

theorem escapeStep_method (method : Method) : escapeStep method.name = method.name := by
  cases method <;> decide

namespace Contract

theorem pathLocation_eq (path : String) : pathLocation path = nodeReference ["paths", path] := by
  have hpaths : nodeReference ["paths"] ++ "/" = "#/paths/" := by decide
  rw [← List.singleton_append, nodeReference_append, pointerText_singleton, ← String.append_assoc, hpaths,
    pathLocation]

theorem operationLocation_eq (path : String) (method : Method) :
    pathLocation path ++ "/" ++ method.name = nodeReference ["paths", path, method.name] := by
  rw [show ["paths", path, method.name] = ["paths", path] ++ [method.name] from rfl, nodeReference_append,
    pathLocation_eq, pointerText_singleton, escapeStep_method, String.append_assoc]

theorem parameterLocation_eq (path : String) (place : Nat) :
    pathLocation path ++ "/parameters/" ++ naturalText place =
      nodeReference ["paths", path, "parameters", naturalText place] := by
  have hkey : pointerText ["parameters", naturalText place] = "/parameters/" ++ naturalText place := by
    have hslash : pointerText ["parameters"] ++ "/" = "/parameters/" := by decide
    rw [← List.singleton_append, pointerText_append, pointerText_singleton (naturalText place),
      escapeStep_naturalText, ← String.append_assoc, hslash]
  rw [show ["paths", path, "parameters", naturalText place] =
      ["paths", path] ++ ["parameters", naturalText place] from rfl, nodeReference_append,
    pathLocation_eq, hkey, String.append_assoc]

end Contract

/-! ## Parts of documents and path items -/

section

variable {fields : Fields}

/-- The paths of a document that is read are those under its key. -/
theorem paths_of_decodeDocument {read : Document} (hordered : fields.Ordered)
    (h : decodeDocument (.object fields) = .ok read) :
    read.paths = [] ∨ (Json.object fields).get? "paths" = some (.object read.paths) := by
  have hview := @view_of_decodeNamed _ _ _ _ _ "paths" _ Document.paths _ rfl ?_ hordered
    (decodeNamed_of_decodeRecord h)
  · rcases hview with ⟨-, hstart⟩ | ⟨raw, a, b, hraw, hstore, hview⟩
    · exact .inl hstart
    · obtain ⟨paths, hpaths, rfl⟩ := Field.exists_of_defaulted hstore
      rw [hview]
      cases raw with
      | object given =>
        rw [decodeTable_any] at hpaths
        cases hpaths
        exact .inr hraw
      | _ => cases hpaths
  · intro other hother hname value a b hstore
    simp only [List.mem_cons, List.not_mem_nil, or_false] at hother
    rcases hother with rfl | rfl | rfl
    · obtain ⟨version, -, rfl⟩ := Field.exists_of_defaulted hstore
      rfl
    · exact absurd rfl hname
    · obtain ⟨components, -, rfl⟩ := Field.exists_of_defaulted hstore
      rfl

/-- An operation of a path item is the value under the name of its method. -/
theorem operation_of_decodePathItem {item : PathItem} {method : Method} {operation : Json}
    (hordered : fields.Ordered) (h : decodePathItem (.object fields) = .ok item)
    (hdeclared : (method, operation) ∈ item.operations) :
    (Json.object fields).get? method.name = some operation := by
  have hoperation : item.operation method = some operation := by
    obtain ⟨other, -, hother⟩ := List.mem_filterMap.1 hdeclared
    obtain ⟨raw, hraw, heq⟩ := Option.map_eq_some_iff.1 hother
    cases heq
    exact hraw
  have hview := @view_of_decodeNamed _ _ _ _ _ method.name (methodField method)
    (fun item => item.operation method) _ (by cases method <;> rfl) ?_ hordered
    (decodeNamed_of_decodeRecord h)
  · rcases hview with ⟨-, hstart⟩ | ⟨raw, a, b, hraw, hstore, hview⟩
    · rw [hoperation] at hstart
      cases hstart
    · obtain ⟨own, hown, rfl⟩ := Field.exists_of_defaulted hstore
      simp only [hoperation, if_true] at hview
      subst hview
      cases raw with
      | null => cases hown
      | _ =>
        cases hown
        exact hraw
  · intro other hother hname value a b hstore
    rcases List.mem_append.1 hother with hmethod | hparameters
    · obtain ⟨given, -, rfl⟩ := List.mem_map.1 hmethod
      obtain ⟨own, -, rfl⟩ := Field.exists_of_defaulted hstore
      have hne : method ≠ given := fun heq => hname (heq ▸ rfl)
      simp only [if_neg hne]
    · cases List.mem_singleton.1 hparameters
      obtain ⟨parameters, -, rfl⟩ := Field.exists_of_defaulted hstore
      rfl

/-- The parameters of a path item are the items of the list under their key. -/
theorem parameters_of_decodePathItem {item : PathItem} (hordered : fields.Ordered)
    (h : decodePathItem (.object fields) = .ok item) :
    item.parameters = [] ∨
      (Json.object fields).get? "parameters" = some (.array item.parameters) := by
  have hview := @view_of_decodeNamed _ _ _ _ _ "parameters" _ PathItem.parameters _ rfl ?_ hordered
    (decodeNamed_of_decodeRecord h)
  · rcases hview with ⟨-, hstart⟩ | ⟨raw, a, b, hraw, hstore, hview⟩
    · exact .inl hstart
    · obtain ⟨parameters, hparameters, rfl⟩ := Field.exists_of_defaulted hstore
      rw [hview]
      cases raw with
      | array items =>
        cases (decodeItems_any items).symm.trans hparameters
        exact .inr hraw
      | _ => cases hparameters
  · intro other hother hname value a b hstore
    rcases List.mem_append.1 hother with hmethod | hparameters
    · obtain ⟨given, -, rfl⟩ := List.mem_map.1 hmethod
      obtain ⟨own, -, rfl⟩ := Field.exists_of_defaulted hstore
      rfl
    · cases List.mem_singleton.1 hparameters
      exact absurd rfl hname

end

/-! ## Culprits -/

section

variable {fields : Fields} {location reason : String}

/-- What steps lead to is a culprit where it cannot be read. -/
theorem isCulprit_of_follow? {document value : Json} {steps : List String} {kind : DefinitionKind}
    (hkind : DefinitionKind.IsAt steps kind) (hvalue : document.follow? steps = some value)
    (hreason : kind.failure? value = some reason) : IsCulprit document (nodeReference steps) reason :=
  ⟨steps, kind, value, pointerSteps?_nodeReference steps, hkind,
    (Json.resolve?_nodeReference document steps).trans hvalue, hreason⟩

theorem failure?_of_error {α : Type} {decode : Json → Decoded α} {entry : Json} {e : DecodeError}
    (h : decodeOrReference decode entry = .error e) : failure? decode entry = some e.message := by
  rw [failure?, h]

theorem DefinitionKind.IsAt.step_of_path {kind : DefinitionKind} {path step : String}
    {rest : List String} (h : DefinitionKind.IsAt ("paths" :: path :: step :: rest) kind) :
    (∃ method : Method, step = method.name) ∨ step = "parameters" := by
  generalize hsteps : "paths" :: path :: step :: rest = steps at h
  cases h with
  | operation path method =>
    cases hsteps
    exact .inl ⟨method, rfl⟩
  | shared =>
    cases hsteps
    exact .inr rfl
  | _ => simp at hsteps

/-- No definition within a list is a culprit. -/
theorem not_isCulprit_of_withinList {document : Json} (h : WithinList document location) :
    ¬ IsCulprit document location reason := by
  obtain ⟨path, step, rest, items, hsteps, hitems⟩ := h
  rintro ⟨steps, kind, value, hown, hkind, hvalue, -⟩
  cases hsteps.symm.trans hown
  have hstep : indexOfStep? step = none := by
    rcases hkind.step_of_path with ⟨method, rfl⟩ | rfl
    · cases method <;> decide
    · decide
  have hsplit : "paths" :: path :: step :: rest = ["paths", path] ++ step :: rest := rfl
  rw [Json.resolve?, hsteps, Option.bind_some, hsplit, Json.follow?_append, hitems, Option.bind_some,
    Json.follow?, Json.child?, hstep] at hvalue
  cases hvalue

/-! ## Components -/

theorem pointerSteps?_of_nameIn? {bucket : Bucket} {reference name : String}
    (h : nameIn? bucket reference = some name) :
    pointerSteps? reference = some ["components", bucket.name, name] := by
  unfold nameIn? at h
  split at h
  · rename_i given named hsteps
    split at h
    · rename_i hnamed
      cases h
      rw [hsteps, hnamed.1]
    · cases h
  · cases h

theorem follow?_of_rawComponent? {document entry : Json} {bucket : Bucket} {name : String}
    (h : rawComponent? document bucket name = some entry) :
    document.follow? ["components", bucket.name, name] = some entry := by
  obtain ⟨held, hheld, hentry⟩ := Option.bind_eq_some_iff.1 h
  obtain ⟨components, hcomponents, hbucket⟩ := Option.bind_eq_some_iff.1 hheld
  simp only [Json.follow?, Json.child?_of_get? hcomponents, Json.child?_of_get? hbucket,
    Json.child?_of_get? hentry, Option.bind_some]

theorem failure?_of_readEntry {α : Type} {decode : Json → Decoded α} {reference : String} {entry : Json}
    (h : readEntry decode reference entry = .error (.invalidDefinition location reason)) :
    location = reference ∧ failure? decode entry = some reason := by
  unfold readEntry at h
  unfold failure? decodeOrReference
  cases hnested : entry.getString? "$ref" with
  | some nested =>
    rw [hnested] at h
    cases h
  | none =>
    rw [hnested] at h
    cases hentry : decode entry with
    | ok item =>
      simp only [hentry] at h
      cases h
    | error e =>
      simp only [hentry] at h
      cases h
      exact ⟨rfl, rfl⟩

/-- What a lookup reports as invalid is the entry that the reference leads to. -/
theorem isCulprit_of_lookupIn {α : Type} {bucket : Bucket} {decode : Json → Decoded α}
    {entries : Components → Table (OrReference α)} {components : Option Components}
    {kind : DefinitionKind} {reference : String} (hbucket : IsBucket bucket decode entries)
    (hkind : ∀ name, DefinitionKind.IsAt ["components", bucket.name, name] kind)
    (hfailure : kind.failure? = failure? decode) (hordered : (Json.object fields).ordered = true)
    (hcomponents : Components.AreOf (.object fields) components)
    (h : lookupIn bucket entries components reference = .error (.invalidDefinition location reason)) :
    IsCulprit (.object fields) location reason := by
  rw [lookupIn_eq_readThrough hbucket hordered hcomponents, readThrough] at h
  cases hname : nameIn? bucket reference with
  | none =>
    rw [hname] at h
    cases h
  | some name =>
    cases hentry : rawComponent? (.object fields) bucket name with
    | none =>
      simp only [hname, hentry] at h
      cases h
    | some entry =>
      simp only [hname, hentry] at h
      obtain ⟨rfl, hreason⟩ := failure?_of_readEntry h
      have hsteps := pointerSteps?_of_nameIn? hname
      refine ⟨_, kind, entry, hsteps, hkind name, ?_, hfailure ▸ hreason⟩
      rw [Json.resolve?, hsteps, Option.bind_some, follow?_of_rawComponent? hentry]

theorem isCulprit_of_partFault {contract : Contract} (hordered : (Json.object fields).ordered = true)
    (hcomponents : Components.AreOf (.object fields) contract.components)
    (h : contract.PartFault (.invalidDefinition location reason)) :
    IsCulprit (.object fields) location reason := by
  cases h with
  | requestBody h =>
    exact isCulprit_of_lookupIn isBucket_requestBodies .requestBody rfl hordered hcomponents h
  | response h => exact isCulprit_of_lookupIn isBucket_responses .response rfl hordered hcomponents h
  | parameter h => exact isCulprit_of_lookupIn isBucket_parameters .parameter rfl hordered hcomponents h
  | schema h =>
    unfold Contract.compileSchema CompiledSchema.compile at h
    dsimp only at h
    split at h <;> cases h

/-! ## Paths -/

theorem object_or_array_of_decodePathItem {raw : Json} {item : PathItem}
    (h : decodePathItem raw = .ok item) :
    (∃ fields, raw = .object fields) ∨ ∃ items, raw = .array items := by
  cases raw with
  | object fields => exact .inl ⟨fields, rfl⟩
  | array items => exact .inr ⟨items, rfl⟩
  | _ => cases h

/-- An invalid definition of a path is a culprit, unless its place is within a list. -/
theorem isCulprit_or_withinList {read : Document} {coercion : CoercionPolicy} {path : String} {raw : Json}
    (hdocument : (Json.object fields).IsDocument) (hread : decodeDocument (.object fields) = .ok read)
    (hpath : (path, raw) ∈ read.paths)
    (h : Contract.PathFault ⟨.object fields, read.paths, read.components, coercion⟩ path raw
      (.invalidDefinition location reason)) :
    IsCulprit (.object fields) location reason ∨ WithinList (.object fields) location := by
  have hitem : (Json.object fields).follow? ["paths", path] = some raw := by
    rcases paths_of_decodeDocument (Json.ordered_object.1 hdocument.ordered).1 hread with
      hnone | hpaths
    · rw [hnone] at hpath
      cases hpath
    · have hordered := (Json.ordered_object.1 (Json.ordered_of_get? hdocument.ordered hpaths)).1
      have hmap : (Json.object fields).follow? ["paths"] = some (.object read.paths) := by
        rw [Json.follow?, Json.child?_of_get? hpaths]
        rfl
      exact Json.follow?_of_child? hmap (Fields.get?_of_mem hordered hpath)
  have hraw := hdocument.of_follow? hitem
  cases h with
  | @item e he =>
    rw [Contract.pathLocation_eq]
    refine .inl (isCulprit_of_follow? (.pathItem path) hitem ?_)
    rw [DefinitionKind.failure?, he]
    rfl
  | @operation item method operation _ hown hdeclared h =>
    cases h with
    | @definition e he =>
      rw [Contract.operationLocation_eq]
      rcases object_or_array_of_decodePathItem hown with ⟨itemFields, rfl⟩ | ⟨items, rfl⟩
      · have hoperation := operation_of_decodePathItem (Json.ordered_object.1 hraw.ordered).1 hown
          hdeclared
        refine .inl (isCulprit_of_follow? (.operation path method)
          (Json.follow?_of_child? hitem (Json.child?_of_get? hoperation)) ?_)
        rw [DefinitionKind.failure?, he]
        rfl
      · exact .inr ⟨path, method.name, [], items, pointerSteps?_nodeReference _, hitem⟩
    | shared h =>
      obtain ⟨i, value, e, hvalue, he, heq⟩ := h
      rw [Nat.zero_add, Contract.parameterLocation_eq] at heq
      cases heq
      rcases object_or_array_of_decodePathItem hown with ⟨itemFields, rfl⟩ | ⟨items, rfl⟩
      · refine .inl (isCulprit_of_follow? (.shared path (naturalText i)) ?_ (failure?_of_error he))
        rcases parameters_of_decodePathItem (Json.ordered_object.1 hraw.ordered).1 hown with
          hnone | hparameters
        · rw [hnone] at hvalue
          cases hvalue
        · have hleads : (Json.object itemFields).Leads ["parameters", naturalText i] value :=
            (Json.Leads.of_get? hparameters).trans (.of_getElem? hvalue)
          rw [show ["paths", path, "parameters", naturalText i] =
            ["paths", path] ++ ["parameters", naturalText i] from rfl, Json.follow?_append, hitem,
            Option.bind_some, Json.follow?_of_leads hraw hleads]
      · exact .inr ⟨path, "parameters", [naturalText i], items, pointerSteps?_nodeReference _, hitem⟩
    | part h => exact .inl (isCulprit_of_partFault hdocument.ordered (.whole hread) h)

end

/-! ## Strict compilation -/

namespace Validator

/-- A failure of strict compilation, where the document can be read, is that of one of its paths. -/
theorem exists_pathFault {options : Options} {raw : Json} {failure : ContractError}
    (hstrict : options.strict = true) (hfailure : ∀ reason, failure ≠ .invalidDocument reason)
    (h : ofDocument options raw = .error failure) :
    ∃ read path item, decodeDocument (prepare options raw) = .ok read ∧ (path, item) ∈ read.paths ∧
      Contract.PathFault ⟨prepare options raw, read.paths, read.components, options.coercion⟩ path item
        failure := by
  have hoptions : { options with strict := true } = options := by
    cases options
    cases hstrict
    rfl
  have hcompile : Registry.compile options raw = .error failure := error_of_map_error h
  cases hcontract : Contract.ofDocument options raw with
  | error other =>
    have hunreadable := Registry.compile_unreadable hcontract true
    rw [hoptions, hcompile] at hunreadable
    cases hunreadable
    obtain ⟨reason, rfl⟩ := Contract.invalidDocument_of_ofDocument hcontract
    exact absurd rfl (hfailure reason)
  | ok contract =>
    have hdeclarations := Registry.compile_strictly hcontract
    rw [hoptions, hcompile] at hdeclarations
    obtain ⟨path, item, hpath, hfault⟩ :=
      Contract.exists_pathFault (mem_of_allResults (error_of_map_error hdeclarations.symm))
    obtain ⟨read, hread, rfl⟩ := Contract.exists_of_ofDocument hcontract
    exact ⟨read, path, item, hread, hpath, hfault⟩

/-- The place of an invalid definition that strict compilation reports leads to the definition that cannot
be read for the reported reason, unless it is within a path item that is a list; and no path item is a list
where the contract has none and none of its paths are read as a nullable type. -/
theorem invalidDefinition_located {options : Options} {fields : Fields} {location reason : String}
    (hstrict : options.strict = true) (hordered : (Json.object fields).ordered = true)
    (haddressable : (prepare options (.object fields)).addressable = true)
    (h : ofDocument options (.object fields) = .error (.invalidDefinition location reason)) :
    (IsCulprit (prepare options (.object fields)) location reason ↔
      ¬ WithinList (prepare options (.object fields)) location) ∧
    ∀ paths, fields.get? "paths" = some (.object paths) → Unlisted paths → ¬ Nulled paths →
      IsCulprit (prepare options (.object fields)) location reason := by
  obtain ⟨read, path, item, hread, hpath, hfault⟩ := exists_pathFault hstrict (by simp) h
  have hdocument : (prepare options (.object fields)).IsDocument :=
    ⟨ordered_prepare options hordered, haddressable⟩
  have hculprit : IsCulprit (prepare options (.object fields)) location reason ↔
      ¬ WithinList (prepare options (.object fields)) location := by
    refine ⟨fun hculprit hwithin => not_isCulprit_of_withinList hwithin hculprit, fun hwithin => ?_⟩
    obtain ⟨prepared, hprepared⟩ := exists_object_prepare options fields
    rw [hprepared] at hread hdocument hfault hwithin ⊢
    exact (isCulprit_or_withinList hdocument hread hpath hfault).resolve_right hwithin
  refine ⟨hculprit, fun paths hpaths hlists hnull => hculprit.2 ?_⟩
  rintro ⟨path, step, rest, items, -, hitems⟩
  obtain ⟨prepared, hprepared, hunlisted⟩ := exists_paths_prepare options hpaths hlists hnull
  rw [Json.follow?, Json.child?_of_get? hprepared, Option.bind_some, Json.follow?] at hitems
  obtain ⟨item, hitem, hsame⟩ := Option.bind_eq_some_iff.1 hitems
  cases hsame
  cases hunlisted path _ hitem

/-- A path whose second parameter for all methods is a number. -/
def numberShared : Fields :=
  [("/a~\x7bb\x7d", .object
    [("get", .object []),
     ("parameters", .array
       [.object [("in", .string "query"), ("name", .string "x")], .number (.int 5)])])]

def numberSharedContract : Fields :=
  [("openapi", .string "3.0.0"), ("paths", .object numberShared)]

theorem ofDocument_numberShared : ofDocument .defaults (.object numberSharedContract) =
    .error (.invalidDefinition "#/paths/~1a~0\x7bb\x7d/parameters/1"
      "data did not match any variant of untagged enum RefOr") := rfl

theorem numberShared_located :
    Options.defaults.strict = true ∧ (Json.object numberSharedContract).ordered = true ∧
    (prepare .defaults (.object numberSharedContract)).addressable = true ∧
    ofDocument .defaults (.object numberSharedContract) =
      .error (.invalidDefinition "#/paths/~1a~0\x7bb\x7d/parameters/1"
        "data did not match any variant of untagged enum RefOr") ∧
    numberSharedContract.get? "paths" = some (.object numberShared) ∧ Unlisted numberShared ∧
    ¬ Nulled numberShared ∧
    IsCulprit (prepare .defaults (.object numberSharedContract))
      "#/paths/~1a~0\x7bb\x7d/parameters/1"
      "data did not match any variant of untagged enum RefOr" ∧
    ¬ WithinList (prepare .defaults (.object numberSharedContract))
      "#/paths/~1a~0\x7bb\x7d/parameters/1" := by
  have hstrict : Options.defaults.strict = true := rfl
  have hordered : (Json.object numberSharedContract).ordered = true := by decide
  have haddressable : (prepare .defaults (.object numberSharedContract)).addressable = true := rfl
  have hlists : Unlisted numberShared := by
    intro key value hvalue
    cases List.mem_singleton.1 (Fields.mem_of_get? hvalue)
    rfl
  have hnull : ¬ Nulled numberShared := fun hnulled => by cases hnulled.1
  obtain ⟨hculprit, hlocated⟩ :=
    invalidDefinition_located hstrict hordered haddressable ofDocument_numberShared
  have hown := hlocated numberShared rfl hlists hnull
  exact ⟨hstrict, hordered, haddressable, ofDocument_numberShared, rfl, hlists, hnull, hown,
    hculprit.1 hown⟩

/-- Two paths that have the names of keywords: read as a schema they admit null as one more type. -/
def nullPaths : Fields := [("nullable", .bool true), ("type", .string "x")]

def nullPathsContract : Fields := [("openapi", .string "3.0.0"), ("paths", .object nullPaths)]

/-- The path items are a flag and a text. One becomes a list, and what is reported is a place within it. -/
theorem nullPaths_misplaced :
    Options.defaults.strict = true ∧ (Json.object nullPathsContract).ordered = true ∧
    nullPathsContract.get? "paths" = some (.object nullPaths) ∧ Unlisted nullPaths ∧
    ofDocument .defaults (.object nullPathsContract) =
      .error (.invalidDefinition "#/paths/type/get"
        "invalid type: string \"x\", expected struct Operation") ∧
    (prepare .defaults (.object nullPathsContract)).resolve? "#/paths/type/get" = none ∧
    ¬ IsCulprit (prepare .defaults (.object nullPathsContract)) "#/paths/type/get"
      "invalid type: string \"x\", expected struct Operation" := by
  have hresolve : (prepare .defaults (.object nullPathsContract)).resolve? "#/paths/type/get" = none :=
    rfl
  refine ⟨rfl, by decide, rfl, ?_, rfl, hresolve, ?_⟩
  · intro key value hvalue
    have hmem := Fields.mem_of_get? hvalue
    simp only [nullPaths, List.mem_cons, List.not_mem_nil, or_false, Prod.mk.injEq] at hmem
    rcases hmem with ⟨-, rfl⟩ | ⟨-, rfl⟩ <;> rfl
  · rintro ⟨steps, kind, value, -, -, hvalue, -⟩
    rw [hresolve] at hvalue
    cases hvalue

end Validator

end ApiContract
