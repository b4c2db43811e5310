import ApiContract.Proofs.Route.Recognition
import ApiContract.Proofs.Schema.Blaming
import ApiContract.Proofs.Schema.Shapes

/-! # The codes of problems

A problem is told by a status and a code. The status is that of the side whose call it was, and the code
is one of a few for what a contract does not allow, or it is made from what a schema blames.

* `CompiledSchema.Gives`: the codes of what an instance fails of a schema.
* `Validator.problem_codes`: the status and the codes of all problems of the three calls. -/

set_option autoImplicit false

namespace ApiContract

/-! ## Codes of a schema -/

/-- The codes of what an instance fails of a schema: that of the guard, that of whatever else is blamed,
and the bare one for a schema that allows nothing at its root. -/
inductive CompiledSchema.Gives (schema : CompiledSchema) (inst : Json) : String → Prop where
  | bare (hroot : schema.root = .bool false) : Gives schema inst "Validation"
  | discriminator (hguarded : schema.isDiscriminated = true) :
    Gives schema inst "Validation-discriminator"
  | blamed {word : String} (h : Blamed schema.root inst word) : Gives schema inst ("Validation-" ++ word)

theorem status_ofViolation (side : Side) (violation : Violation) :
    (ErrorObject.ofViolation side violation).status = side.status := by
  unfold ErrorObject.ofViolation
  cases violation.keyword <;> cases violation.schemaPointer <;> simp only <;> split <;> rfl

theorem code_ofViolation (side : Side) (violation : Violation) :
    (ErrorObject.ofViolation side violation).code =
      (violation.keyword.map fun word => "Validation-" ++ word).getD "Validation" := by
  unfold ErrorObject.ofViolation
  cases violation.keyword <;> cases violation.schemaPointer <;> simp only <;> split <;> rfl

theorem gives_of_mem_schemaErrors {side : Side} {schema : CompiledSchema} {inst : Json}
    {problem : ErrorObject} (h : problem ∈ schemaErrors side schema inst) :
    problem.status = side.status ∧ schema.Gives inst problem.code := by
  rw [schemaErrors_eq] at h
  obtain ⟨violation, hviolation, rfl⟩ := List.mem_map.1 h
  refine ⟨status_ofViolation side violation, ?_⟩
  rw [code_ofViolation]
  rcases List.mem_append.1 hviolation with hfound | hguard
  · obtain ⟨finding, hfinding, rfl⟩ := List.mem_map.1 hfound
    have hkeyword : (schema.violationOf finding).keyword = keywordOf? finding.schemaSteps := rfl
    rw [hkeyword]
    rcases blamed_of_mem_findings hfinding with ⟨hroot, hsteps⟩ | ⟨word, hword, hblamed⟩
    · rw [hsteps]
      exact .bare hroot
    · rw [hword]
      exact .blamed hblamed
  · split at hguard
    · rename_i hdiscriminated
      obtain ⟨stop, -, -, message, -, rfl⟩ := mem_guardViolations_iff.1 hguard
      exact .discriminator hdiscriminated
    · cases hguard

/-! ## Codes of calls -/

/-- The codes of what a contract does not allow in a query. -/
def queryCodes : List String :=
  ["Validation-invalid-query-parameter", "Validation-query-parameter",
    "Validation-required-query-parameter"]

def requestBodyCodes : List String :=
  ["Validation-unexpected-request-body", "Validation-missing-request-body"]

def responseBodyCodes : List String := ["Validation-unexpected-response-body"]

/-- A body as it is held against a schema. -/
def Validator.held (validator : Validator) (body : Json) : Json :=
  if validator.options.convertDates then NativeDate.convert body else body

theorem unknownParameter_code (name : String) : (unknownParameter name).code ∈ queryCodes := by
  show "Validation-" ++ "invalid-query-parameter" ∈ queryCodes
  decide +kernel

theorem emptyParameter_code (name : String) : (emptyParameter name).code ∈ queryCodes := by
  show "Validation-" ++ "query-parameter" ∈ queryCodes
  decide +kernel

theorem missingParameter_code (name : String) : (missingParameter name).code ∈ queryCodes := by
  show "Validation-" ++ "required-query-parameter" ∈ queryCodes
  decide +kernel

section

variable {strict : Bool} {exclusions : List String} {parameters : List QueryParameter}
  {before fields : Fields} {key : String} {value : Json} {problem : ErrorObject}

theorem mem_of_taker? {parameter : QueryParameter} (h : taker? parameters before key = some parameter) :
    parameter ∈ parameters :=
  (List.mem_filter.1 (List.mem_of_getElem? h)).1

theorem code_of_mem_fieldErrors (h : problem ∈ fieldErrors strict exclusions parameters before key value) :
    problem.status = 400 ∧ (problem.code ∈ queryCodes ∨
      ∃ parameter ∈ parameters, parameter.schema.Gives value problem.code) := by
  unfold fieldErrors at h
  split at h
  · rename_i parameter htaker
    split at h
    · cases List.mem_singleton.1 h
      exact ⟨rfl, .inl (emptyParameter_code key)⟩
    · rw [← schemaErrors_eq] at h
      obtain ⟨hstatus, hgives⟩ := gives_of_mem_schemaErrors h
      exact ⟨hstatus, .inr ⟨parameter, mem_of_taker? htaker, hgives⟩⟩
  · split at h
    · cases List.mem_singleton.1 h
      exact ⟨rfl, .inl (unknownParameter_code key)⟩
    · cases h

theorem code_of_mem_queryErrors (h : problem ∈ queryErrors strict exclusions parameters fields) :
    problem.status = 400 ∧ (problem.code ∈ queryCodes ∨
      ∃ parameter ∈ parameters, ∃ field ∈ fields, parameter.schema.Gives field.2 problem.code) := by
  rcases List.mem_append.1 h with hvalue | hmissing
  · obtain ⟨⟨before, field⟩, hentry, hmem⟩ := List.mem_flatMap.1 hvalue
    obtain ⟨after, rfl⟩ := mem_withBefore.1 hentry
    obtain ⟨hstatus, hcode⟩ := code_of_mem_fieldErrors hmem
    refine ⟨hstatus, hcode.imp_right ?_⟩
    rintro ⟨parameter, hparameter, hgives⟩
    exact ⟨parameter, hparameter, field, List.mem_append_right _ List.mem_cons_self, hgives⟩
  · obtain ⟨parameter, -, rfl⟩ := List.mem_map.1 hmissing
    exact ⟨rfl, .inl (missingParameter_code parameter.name)⟩

end

/-- Every problem has the status of its side. Its code is one of those for what the contract does not
allow, or it is given by the schema that the value is held against: then it names the guard, a keyword
that a schema in use has, or else a name under which such a schema has the schema that allows nothing. -/
theorem Validator.problem_codes (validator : Validator) (path method : String) (strict : Bool) :
    (∀ exclusions input,
      ∀ problem ∈ (validator.checkQuery path method strict exclusions input).problems,
        problem.status = 400 ∧ (problem.code ∈ queryCodes ∨
          ∃ parameter ∈ validator.registry.parameters (.of path method),
            ∃ field ∈ (validator.checkQuery path method strict exclusions input).normalized,
              parameter.schema.Gives field.2 problem.code)) ∧
    (∀ body, ∀ problems ∈ validator.checkRequestBody path method strict body, ∀ problem ∈ problems,
      problem.status = 400 ∧ (problem.code ∈ requestBodyCodes ∨
        ∃ check ∈ validator.registry.requestBody? (.of path method),
          ∃ value ∈ present body, check.schema.Gives (validator.held value) problem.code)) ∧
    (∀ status body, ∀ problems ∈ validator.checkResponseBody path method status strict body,
      ∀ problem ∈ problems, problem.status = 500 ∧ (problem.code ∈ responseBodyCodes ∨
        ∃ schema ∈ validator.registry.response? (.of path method) status,
          schema.Gives (validator.held ((present body).getD .null)) problem.code)) := by
  refine ⟨fun exclusions input problem h => ?_, fun body problems hproblems problem h => ?_,
    fun status body problems hproblems problem h => ?_⟩
  · rw [Validator.problems_checkQuery] at h
    exact code_of_mem_queryErrors h
  · unfold checkRequestBody at hproblems
    split at hproblems
    · rename_i value check hvalue hcheck
      rw [eq_of_reported hproblems] at h
      obtain ⟨hstatus, hgives⟩ := gives_of_mem_schemaErrors h
      exact ⟨hstatus, .inr ⟨check, hcheck, value, hvalue, hgives⟩⟩
    · split at hproblems
      · cases hproblems
        cases List.mem_singleton.1 h
        exact ⟨rfl, .inl (List.mem_of_getElem? (i := 0) rfl)⟩
      · cases hproblems
    · split at hproblems
      · cases hproblems
        cases List.mem_singleton.1 h
        exact ⟨rfl, .inl (List.mem_of_getElem? (i := 1) rfl)⟩
      · cases hproblems
    · cases hproblems
  · unfold checkResponseBody at hproblems
    split at hproblems
    · rename_i schema hschema
      rw [eq_of_reported hproblems] at h
      obtain ⟨hstatus, hgives⟩ := gives_of_mem_schemaErrors h
      exact ⟨hstatus, .inr ⟨schema, hschema, hgives⟩⟩
    · split at hproblems
      · cases hproblems
        cases List.mem_singleton.1 h
        exact ⟨rfl, .inl (List.mem_singleton.2 rfl)⟩
      · cases hproblems

/-! ## A property that is refused -/

section

open Evaluation

/-- A schema that refuses one property. -/
def refusingSchema : Json := .object [("properties", .object [("foo", .bool false)])]

theorem passes_metaSchema_refusing (known pool : List String) :
    Passes metaSchema known pool metaSchema refusingSchema := by
  refine (passes_metaSchema_iff (by decide)).2 fun keyword value hmem shape hshape => ?_
  cases List.mem_singleton.1 hmem
  have htable : Fields.get? "properties" MetaSchema.keywords =
      some (MetaSchema.tableOf MetaSchema.anySchema) := rfl
  cases htable.symm.trans hshape
  refine passes_table_iff.2 fun name inner hinner => passes_anySchema fun pool => ?_
  cases List.mem_singleton.1 hinner
  exact passes_metaSchema_bool false

theorem foreignFault?_refusing : foreignFault? refusingSchema = none := by
  have hbool : nestedSchemas (.bool false) = [] := by
    rw [nestedSchemas]
    rfl
  have hnested : nestedSchemas refusingSchema = [.bool false] := by
    rw [refusingSchema, nestedSchemas]
    show Json.bool false :: (nestedSchemas (.bool false) ++ []) = _
    rw [hbool]
    rfl
  unfold foreignFault?
  rw [hnested]
  rfl

theorem keywordFault?_refusing : keywordFault? refusingSchema = none := by
  have hbool : ∀ root pool, checkKeywords root pool (.bool false) = .ok ⟨pool, Nat.le_refl _⟩ := by
    intro root pool
    rw [checkKeywords]
  have hrequired : ((Json.object [("properties", .object [("foo", .bool false)])]).fieldParts.flatMap
      fun entry => keywordRequirements [("properties", .object [("foo", .bool false)])] entry.1
        entry.2) = [.holds ⟨.bool false, by simp; omega⟩] := rfl
  unfold keywordFault? refusingSchema
  rw [checkKeywords]
  simp only [Fields.get?_cons, hrequired, List.foldlM, hbool]
  rfl

theorem reachesDiscriminator_refusing : reachesDiscriminator refusingSchema = false := by
  have hbool : ∀ root pool, searchCases root pool (.bool false) = some ⟨pool, Nat.le_refl _⟩ := by
    intro root pool
    rw [searchCases]
    all_goals simp
  have hfoo : ∀ root pool, searchCases root pool (.object [("foo", .bool false)]) =
      some ⟨pool, Nat.le_refl _⟩ := by
    intro root pool
    rw [searchCases]
    simp [Json.fieldParts, hbool, Fields.hasKey, Fields.get?_cons, Json.reference?, Json.getString?,
      Json.get?, isDataKeyword, dataKeywords, casesKeyword]
  have hbare : withoutComponents refusingSchema = refusingSchema := rfl
  unfold reachesDiscriminator
  rw [hbare, refusingSchema, searchCases]
  simp [Json.fieldParts, hfoo, Fields.hasKey, Fields.get?_cons, Json.reference?, Json.getString?,
    Json.get?, isDataKeyword, dataKeywords, casesKeyword]

theorem CompiledSchema.compile_refusing (name : String) :
    CompiledSchema.compile name refusingSchema none = .ok ⟨name, refusingSchema, false⟩ := by
  have hroot : rootOf refusingSchema none = refusingSchema := rfl
  rw [compile_of_faultless hroot foreignFault?_refusing
    (metaFault?_of_passes (passes_metaSchema_refusing _ _)) keywordFault?_refusing,
    reachesDiscriminator_refusing]

/-- An operation whose request body may not have one property. -/
def refusingOperation : Json :=
  .object
    [("requestBody", .object
      [("content", .object [("application/json", .object [("schema", refusingSchema)])])]),
     ("responses", .object [])]

def refusingPaths : Fields := [("/a", .object [("post", refusingOperation)])]

def refusingContract : Contract :=
  ⟨.object [("paths", .object refusingPaths)], refusingPaths, none, .lenient⟩

def refusingBody : CompiledSchema := ⟨"#/paths/a/post/requestBody", refusingSchema, false⟩

def refusingRoute : Route := ⟨"/a", some ⟨refusingBody, false⟩, [], [], none⟩

def refusingValidator : Validator := ⟨.ofDeclarations [(.of "/a" "post", refusingRoute)], .defaults⟩

theorem refusingContract_ofDocument :
    Contract.ofDocument .defaults refusingContract.document = .ok refusingContract := rfl

theorem refusingValidator_ofDocument :
    Validator.ofDocument .defaults refusingContract.document = .ok refusingValidator := by
  have hbody : refusingContract.compileSchema "#/paths/a/post/requestBody" refusingSchema =
      .ok refusingBody := CompiledSchema.compile_refusing _
  have hroute : refusingContract.compileOperation "/a" .post refusingOperation [] =
      .ok refusingRoute := by
    show (refusingContract.compileSchema "#/paths/a/post/requestBody" refusingSchema >>=
      fun compiled => _) >>= _ = _
    rw [hbody]
    rfl
  have hdeclarations : refusingContract.declarations = [.ok (.of "/a" "post", refusingRoute)] := by
    show [(refusingContract.compileOperation "/a" .post refusingOperation []).map _] = _
    rw [hroute]
    rfl
  rw [Validator.ofDocument, Registry.compile_of_single refusingContract_ofDocument hdeclarations]
  rfl

theorem findings_refusingSchema : Evaluation.findings refusingSchema refusingSchema
    (.object [("foo", .ofNat 1)]) =
      [⟨["properties", "foo"], ["foo"], "False schema does not allow 1"⟩] := by
  have hfalse : ∀ root known pool, findingsWith root known pool (.bool false) (.ofNat 1) =
      [refusal (.ofNat 1)] := by
    intro root known pool
    rw [findingsWith]
  unfold Evaluation.findings refusingSchema
  rw [findingsWith_keywords [] (by simp [Fields.get?_cons])]
  show (((findingsWith _ _ _ (.bool false) (.ofNat 1)).map (Finding.under ["properties", "foo"] ["foo"]) ++
    []) ++ []) ++ [] = _
  rw [hfalse]
  rfl

end

/-- The code of a property that is refused has the name of the property, which is no keyword. -/
theorem refusedProperty_coded :
    ∃ validator, Validator.ofDocument .defaults refusingContract.document = .ok validator ∧
      (validator.checkRequestBody "/a" "post" true (some (.object [("foo", .ofNat 1)]))).map
        (·.map ErrorObject.code) = some ["Validation-foo"] ∧
      "Validation-foo" ∉ ["Validation", "Validation-discriminator"] ++
        (queryCodes ++ requestBodyCodes ++ responseBodyCodes) ++
        keywordNames.map fun word => "Validation-" ++ word := by
  refine ⟨refusingValidator, refusingValidator_ofDocument, ?_, by decide +kernel⟩
  obtain ⟨finding, hfinding⟩ : ∃ finding : Finding, finding =
    ⟨["properties", "foo"], ["foo"], "False schema does not allow 1"⟩ := ⟨_, rfl⟩
  have hregistry : refusingValidator.registry.requestBody? (.of "/a" "post") =
      some ⟨refusingBody, false⟩ := by
    simp [refusingValidator, Registry.ofDeclarations, Registry.declare, Registry.requestBody?,
      Registry.get?, refusingRoute]
  have hcheck : refusingValidator.checkRequestBody "/a" "post" true
      (some (.object [("foo", .ofNat 1)])) =
        reported (schemaErrors .request refusingBody (.object [("foo", .ofNat 1)])) := by
    rw [Validator.checkRequestBody, hregistry]
    rfl
  have hviolations : refusingBody.violations (.object [("foo", .ofNat 1)]) =
      [refusingBody.violationOf finding] := by
    rw [CompiledSchema.violations]
    show (Evaluation.findings refusingSchema refusingSchema _).map _ ++ [] = _
    rw [findings_refusingSchema, hfinding]
    rfl
  have hkeyword : (refusingBody.violationOf finding).keyword = some "foo" := by
    rw [hfinding]
    show keywordOf? ["properties", "foo"] = some "foo"
    decide +kernel
  rw [hcheck, schemaErrors_eq, hviolations, List.map_singleton]
  show some [(ErrorObject.ofViolation .request (refusingBody.violationOf finding)).code] = some ["Validation-foo"]
  rw [code_ofViolation, hkeyword]
  rfl

end ApiContract
