import ApiContract.Proofs.Query.Taking
import ApiContract.Proofs.Route.Declaring

/-! # Statuses

The status under which a response is declared is a name. A response that is declared under one status is
checked as the same response under another, as long as the names on the way to it are names to the walks
that prepare the contract.

* `ResponsePlace`, `declareResponse`: one more response of an operation.
* `declareResponse_renamed`: contracts that declare it under two statuses differ in one name.
* `declareResponse_checkedAlike`: they are checked alike. -/

set_option autoImplicit false

namespace ApiContract

/-! ## Declared responses -/

/-- Where the responses of an operation stand in a contract. -/
structure ResponsePlace (contract : Json) (path : String) (method : Method) where
  paths : Fields
  item : Fields
  operation : Fields
  responses : Fields
  paths_there : contract.get? "paths" = some (.object paths)
  item_there : paths.get? path = some (.object item)
  operation_there : item.get? method.name = some (.object operation)
  responses_there : operation.get? "responses" = some (.object responses)

/-- An object with a field put in. -/
def putField (key : String) (value : Json) : Json → Json
  | .object fields => .object (Fields.insert key value fields)
  | other => other

/-- A contract with one more response of an operation. -/
def declareResponse (path : String) (method : Method) (status : String) (response : Json) :
    Json → Json :=
  mapField "paths" <| mapField path <| mapField method.name <| mapField "responses" <|
    putField status response

section

variable {key : String}

theorem mapField_fill (frame : Frame key) (f : Json → Json) (value : Json) :
    mapField key f (.object (frame.fill value)) = .object (frame.fill (f value)) := by
  have hfree : ∀ fields : Fields, (∀ field ∈ fields, field.1 ≠ key) →
      (fields.map fun field => if field.1 == key then (field.1, f field.2) else field) = fields := by
    intro fields hfields
    refine (List.map_congr_left fun field hfield => ?_).trans (List.map_id _)
    rw [beq_false_of_ne (hfields field hfield), if_neg Bool.false_ne_true, id]
  rw [mapField, Frame.fill, Frame.fill, List.map_append, List.map_cons, hfree _ frame.front_free,
    hfree _ frame.back_free, beq_self_eq_true, if_pos rfl]

theorem exists_frame {holder value : Json} (ho : holder.ordered = true)
    (h : holder.get? key = some value) : ∃ frame : Frame key, holder = .object (frame.fill value) := by
  cases holder with
  | object fields =>
    obtain ⟨frame, hframe⟩ := Frame.exists_of_get? (Json.ordered_object.1 ho).1 h
    exact ⟨frame, congrArg Json.object hframe⟩
  | _ => cases h

theorem IsMap.fill {frame : Frame key} {old : Json} (h : IsMap (frame.fill old)) {value : Json}
    (hkind : SameKind old value) : IsMap (frame.fill value) := by
  refine h.of_sameKind fun other found hfound => ?_
  by_cases hother : other = key
  · subst hother
    rw [Frame.get?_fill_self, Option.some.injEq] at hfound
    exact ⟨old, Frame.get?_fill_self .., hfound ▸ hkind⟩
  · rw [Frame.get?_fill _ _ hother] at hfound
    exact ⟨found, (Frame.get?_fill _ _ hother).trans hfound, .refl _⟩

end

/-- A response that may be declared under the one status or the other. The objects on the way to it are
maps, and no other path is the same in lower case. -/
structure ResponsePlace.Takes {contract : Json} {path : String} {method : Method}
    (place : ResponsePlace contract path method) (first second : String) (response : Fields) : Prop where
  first_free : place.responses.get? first = none
  second_free : place.responses.get? second = none
  paths : IsMap place.paths
  apart : ∀ entry ∈ place.paths, entry.1 ≠ path → lowerCase entry.1 ≠ lowerCase path
  left : IsMap (place.responses.insert first (.object response))
  right : IsMap (place.responses.insert second (.object response))

/-- The steps to the responses of an operation. -/
def stepsTo (path : String) (method : Method) : List Step :=
  [.to "paths", ⟨path, fun other => lowerCase other ≠ lowerCase path⟩, .to method.name, .to "responses"]

section

variable {contract : Json} {path : String} {method : Method} {first second : String} {response : Fields}

theorem declareResponse_renamed (ho : contract.ordered = true) (place : ResponsePlace contract path method)
    (h : place.Takes first second response) :
    Renamed first second (stepsTo path method)
      (declareResponse path method first (.object response) contract)
      (declareResponse path method second (.object response) contract) := by
  obtain ⟨paths, item, operation, responses, hpathsThere, hitem, hoperation, hresponses⟩ := place
  obtain ⟨hfirst, hsecond, hpaths, hapart, hleft, hright⟩ := h
  have hopaths := Json.ordered_of_get? ho hpathsThere
  have hoitem := Json.ordered_of_get? hopaths hitem
  have hooperation := Json.ordered_of_get? hoitem hoperation
  obtain ⟨root, rfl⟩ := exists_frame ho hpathsThere
  obtain ⟨around, haround⟩ := exists_frame hopaths hitem
  obtain ⟨methods, hmethods⟩ := exists_frame hoitem hoperation
  obtain ⟨parts, hparts⟩ := exists_frame hooperation hresponses
  cases haround
  cases hmethods
  cases hparts
  have hmethod : method.name ∉ walkedKeywords := by cases method <;> decide
  unfold declareResponse stepsTo
  simp only [mapField_fill, putField]
  refine .step (.to "paths") root (.inl ⟨by decide, fun _ => trivial⟩) ?_
  refine .step ⟨path, _⟩ around (.inr ⟨?_, ?_, ?_⟩) ?_
  · exact hpaths.fill (.object ..)
  · exact hpaths.fill (.object ..)
  · refine List.forall_mem_map.2 fun entry hentry => ?_
    refine hapart entry (Frame.mem_fill.2 (.inr hentry)) ?_
    rcases List.mem_append.1 hentry with hfront | hback
    · exact around.front_free entry hfront
    · exact around.back_free entry hback
  · refine .step (.to method.name) methods (.inl ⟨hmethod, fun _ => trivial⟩) ?_
    refine .step (.to "responses") parts (.inl ⟨by decide, fun _ => trivial⟩) ?_
    exact .entry hfirst hsecond hleft hright

theorem refersOnly_declareResponse {p : String → Prop} (status : String) (h : RefersOnly p contract)
    (hresponse : RefersOnly p (.object response)) :
    RefersOnly p (declareResponse path method status (.object response) contract) := by
  refine refersOnly_mapField (sameKind_mapField _ _) (fun paths hpaths => ?_) h
  refine refersOnly_mapField (sameKind_mapField _ _) (fun item hitem => ?_) hpaths
  refine refersOnly_mapField (sameKind_mapField _ _) (fun operation hoperation => ?_) hitem
  have hkind : ∀ value, SameKind value (putField status (.object response) value) := by
    intro value
    unfold putField
    split
    · exact .object ..
    · exact .refl _
  refine refersOnly_mapField hkind (fun responses hresponses => ?_) hoperation
  unfold putField
  split
  · refine refersOnly_insert hresponses ⟨fun _ reference heq => ?_, hresponse⟩
    cases heq
  · exact hresponses

end

/-! ## Compiled contracts -/

section

variable {options : Options} {path : String} {method : Method} {first second : String} {left right : Json}

theorem Renamed.exists_responseFrame (h : Renamed first second (stepsTo path method) left right) :
    ∃ (root : Frame "paths") (frame : ResponseFrame path method) (others : Fields) (value : Json),
      left = .object (root.fill (.object (frame.fill (others.insert first value)))) ∧
      right = .object (root.fill (.object (frame.fill (others.insert second value)))) ∧
      others.get? first = none ∧ others.get? second = none ∧
      ∀ other ∈ frame.paths.otherKeys, lowerCase other ≠ lowerCase path := by
  cases h with
  | step _ root _ hpaths =>
    cases hpaths with
    | step _ paths hkept hitem =>
      cases hitem with
      | step _ item _ hoperation =>
        cases hoperation with
        | step _ operation _ hresponses =>
          cases hresponses with
          | entry hfirst hsecond _ _ =>
            exact ⟨root, ⟨paths, item, operation⟩, _, _, rfl, rfl, hfirst, hsecond, hkept.apart⟩

theorem Contract.ofDocument_agree (halike : TreatedAlike first second)
    (h : Renamed first second (stepsTo path method) left right)
    (hleft : RefersOnly (LeadsElsewhere "paths") left)
    (hright : RefersOnly (LeadsElsewhere "paths") right) :
    Agree (fun one another => List.Forall₂ (Agree (SameDeclaration first second (.of path method.name)))
        one.declarations another.declarations)
      (Contract.ofDocument options left) (Contract.ofDocument options right) := by
  have hprepared : Renamed first second (stepsTo path method) (prepare options left)
      (prepare options right) := Renamed.prepare options halike (by decide) h hleft hright
  obtain ⟨root, frame, others, value, hone, htwo, hfirst, hsecond, hapart⟩ :=
    hprepared.exists_responseFrame
  have hread := decodeDocument_agree root (frame.fill (others.insert first value))
    (frame.fill (others.insert second value))
  have hcomponents : (prepare options left).get? "components" =
      (prepare options right).get? "components" := by
    rw [hone, htwo, Json.get?, Json.get?, root.get?_fill _ (by decide), root.get?_fill _ (by decide)]
  rw [← hone, ← htwo] at hread
  unfold Contract.ofDocument
  dsimp only
  generalize decodeDocument (prepare options left) = x at hread ⊢
  generalize decodeDocument (prepare options right) = y at hread ⊢
  cases hread with
  | error e f => exact .error _ _
  | @ok one another hdocuments =>
    obtain ⟨hread, hone, htwo⟩ := hdocuments
    have hsame : SameComponents ⟨prepare options left, one.paths, one.components, options.coercion⟩
        ⟨prepare options right, another.paths, another.components, options.coercion⟩ :=
      ⟨hread, hcomponents⟩
    exact .ok (declarations_agree hsame frame hfirst hsecond hapart hone htwo)

theorem Registry.compile_agree (options : Options) (halike : TreatedAlike first second)
    (h : Renamed first second (stepsTo path method) left right)
    (hleft : RefersOnly (LeadsElsewhere "paths") left)
    (hright : RefersOnly (LeadsElsewhere "paths") right) :
    Agree (List.Forall₂ (SameDeclaration first second (.of path method.name)))
      (Registry.compile options left) (Registry.compile options right) := by
  refine (Contract.ofDocument_agree halike h hleft hright).bind fun one another hdeclarations => ?_
  cases options.strict with
  | true =>
    exact (allResults_agree hdeclarations).bind fun _ _ hall => .ok (ofDeclarations_same hall)
  | false => exact .ok (ofDeclarations_same (someResults_forall₂ hdeclarations))

end

/-! ## Checked bodies -/

/-- Whether the contracts that declare a response under the one status and under the other are both
refused, or both compiled and check the bodies of the response alike. -/
def CheckedAlike (options : Options) (contract : Json) (path : String) (method : Method)
    (first second : String) (response : Fields) : Prop :=
  Agree (fun one another : Validator => ∀ strict body,
      one.checkResponseBody path method.name first strict body = none ↔
        another.checkResponseBody path method.name second strict body = none)
    (Validator.ofDocument options (declareResponse path method first (.object response) contract))
    (Validator.ofDocument options (declareResponse path method second (.object response) contract))

theorem Validator.checkResponseBody_same {one another : Validator} {path method first second : String}
    (hoptions : one.options = another.options)
    (h : (one.registry.response? (.of path method) first).map CompiledSchema.unnamed =
      (another.registry.response? (.of path method) second).map CompiledSchema.unnamed)
    (strict : Bool) (body : Option Json) :
    one.checkResponseBody path method first strict body = none ↔
      another.checkResponseBody path method second strict body = none := by
  unfold checkResponseBody
  generalize one.registry.response? (.of path method) first = left at h ⊢
  generalize another.registry.response? (.of path method) second = right at h ⊢
  cases left with
  | none =>
    cases right with
    | none => exact Iff.rfl
    | some schema => cases h
  | some schema =>
    cases right with
    | none => cases h
    | some other =>
      have hschemas : schema.unnamed = other.unnamed := Option.some.inj h
      simp only [bodyErrors, reported_eq_none_iff, schemaErrors_eq_nil_iff, hoptions]
      rw [CompiledSchema.accepts_of_unnamed hschemas]

theorem declareResponse_checkedAlike {options : Options} {contract : Json} {path : String} {method : Method}
    {first second : String} {response : Fields} (halike : TreatedAlike first second)
    (ho : contract.ordered = true) {place : ResponsePlace contract path method}
    (h : place.Takes first second response) (hcontract : RefersOnly (LeadsElsewhere "paths") contract)
    (hresponse : RefersOnly (LeadsElsewhere "paths") (.object response)) :
    CheckedAlike options contract path method first second response := by
  have hregistries := Registry.compile_agree options halike
    (declareResponse_renamed ho place h) (refersOnly_declareResponse first hcontract hresponse)
    (refersOnly_declareResponse second hcontract hresponse)
  exact hregistries.map fun one another hsame =>
    Validator.checkResponseBody_same rfl (Registry.response?_same hsame)

end ApiContract
