import ApiContract.Proofs.Route.Agreement
import ApiContract.Proofs.Schema.Guarding
import ApiContract.Route.Compilation

/-! # Compiling alike

What is compiled of a contract depends on its components, on what is compiled, and on names only where it
keeps them.

* `SameComponents`: contracts whose schemas may refer to the same.
* `SameResponses`: responses that check the same under two statuses.
* `compileResponses_agree`: a response under another status.
* `compileOperation_agree`: operations with responses that are compiled alike. -/

set_option autoImplicit false

namespace ApiContract

/-! ## Contracts -/

/-- Contracts with the same components, for reading and for compiling. -/
structure SameComponents (left right : Contract) : Prop where
  read : left.components = right.components
  written : left.document.get? "components" = right.document.get? "components"

namespace Contract

section

variable {left right : Contract}

theorem compileSchema_congr (h : SameComponents left right) :
    left.compileSchema = right.compileSchema := by
  funext name schema
  rw [compileSchema, compileSchema, h.written]

theorem compileRequestBody_congr (h : SameComponents left right) :
    left.compileRequestBody = right.compileRequestBody := by
  funext base declared
  unfold compileRequestBody
  rw [compileSchema_congr h, h.read]

theorem compileResponses_congr (h : SameComponents left right) :
    left.compileResponses = right.compileResponses := by
  funext base table
  induction table with
  | nil => rfl
  | cons entry rest ih => rw [compileResponses, compileResponses, compileSchema_congr h, h.read, ih]

theorem resolveParameters_congr (h : SameComponents left right) :
    left.resolveParameters = right.resolveParameters := by
  funext entries
  induction entries with
  | nil => rfl
  | cons entry rest ih => rw [resolveParameters, resolveParameters, h.read, ih]

theorem compileParameters_congr (h : SameComponents left right) :
    left.compileParameters = right.compileParameters := by
  funext base schemas
  induction schemas with
  | nil => rfl
  | cons schema rest ih => rw [compileParameters, compileParameters, compileSchema_congr h, ih]

end

end Contract

/-! ## Schemas under other names -/

/-- A compiled schema without its name. -/
def CompiledSchema.unnamed (schema : CompiledSchema) : CompiledSchema := { schema with name := "" }

theorem CompiledSchema.accepts_of_unnamed {one other : CompiledSchema}
    (h : one.unnamed = other.unnamed) (inst : Json) : one.accepts inst = other.accepts inst := by
  have hroot : one.unnamed.root = other.unnamed.root := by rw [h]
  have hguard : one.unnamed.isDiscriminated = other.unnamed.isDiscriminated := by rw [h]
  have hiff : one.unnamed.accepts inst = true ↔ other.unnamed.accepts inst = true := by rw [h]
  have hown : ∀ schema : CompiledSchema,
      schema.accepts inst = true ↔ schema.unnamed.accepts inst = true := by
    intro schema
    rw [accepts_iff, accepts_iff]
    rfl
  exact Bool.eq_iff_iff.2 ((hown one).trans (hiff.trans (hown other).symm))

theorem Contract.compileSchema_agree (contract : Contract) (name other : String) (schema : Json) :
    Agree (fun one another => one.unnamed = another.unnamed) (contract.compileSchema name schema)
      (contract.compileSchema other schema) := by
  unfold Contract.compileSchema CompiledSchema.compile
  simp only
  split
  · exact .error _ _
  · exact .ok rfl

/-! ## Responses -/

namespace Contract

variable {contract : Contract} {base : String}

/-- Compiles one response, if it has a JSON schema. -/
def compileResponse (contract : Contract) (name : String) (entry : OrReference Response) :
    Except ContractError (Option CompiledSchema) :=
  (entry.resolve (lookupResponse contract.components)).bind fun response =>
    match response.jsonSchema? with
    | none => .ok none
    | some schema => (contract.compileSchema name schema).map some

theorem compileResponses_cons (status : String) (entry : OrReference Response)
    (rest : Table (OrReference Response)) :
    contract.compileResponses base ((status, entry) :: rest) =
      (contract.compileResponse (base ++ "/response/" ++ status) entry).bind fun own =>
        (contract.compileResponses base rest).map fun others =>
          (own.toList.map fun schema => (status, schema)) ++ others := by
  cases hresolve : entry.resolve (lookupResponse contract.components) with
  | error e =>
    rw [compileResponses, compileResponse, hresolve]
    rfl
  | ok response =>
    cases hschema : response.jsonSchema? with
    | none =>
      rw [compileResponses, compileResponse, hresolve]
      simp only [bind, Except.bind, hschema]
      cases contract.compileResponses base rest <;> rfl
    | some schema =>
      rw [compileResponses, compileResponse, hresolve]
      simp only [bind, Except.bind, hschema]
      cases contract.compileSchema (base ++ "/response/" ++ status) schema with
      | error e => rfl
      | ok compiled => cases contract.compileResponses base rest <;> rfl

/-- The order of responses does not matter for whether they can be compiled. -/
theorem compileResponses_perm (contract : Contract) (base : String)
    {table given : Table (OrReference Response)} (h : table.Perm given) :
    Agree List.Perm (contract.compileResponses base table) (contract.compileResponses base given) := by
  refine agree_perm (fun entry : String × OrReference Response =>
    (contract.compileResponse (base ++ "/response/" ++ entry.1) entry.2).map fun own =>
      (own.toList.map fun schema => (entry.1, schema) : Table CompiledSchema)) rfl ?_ h
  intro entry rest
  rw [compileResponses_cons]
  cases contract.compileResponse (base ++ "/response/" ++ entry.1) entry.2 <;> rfl

theorem mem_of_compileResponses {table : Table (OrReference Response)} {compiled : Table CompiledSchema}
    (h : contract.compileResponses base table = .ok compiled) {entry : String × CompiledSchema}
    (hentry : entry ∈ compiled) : entry.1 ∈ table.map Prod.fst := by
  induction table generalizing compiled with
  | nil =>
    cases h
    cases hentry
  | cons given rest ih =>
    rw [compileResponses_cons] at h
    obtain ⟨own, -, h⟩ := exists_of_bind_ok h
    obtain ⟨others, hrest, rfl⟩ := exists_of_map_ok h
    rw [List.map_cons, List.mem_cons]
    rcases List.mem_append.1 hentry with hfirst | hothers
    · obtain ⟨schema, -, rfl⟩ := List.mem_map.1 hfirst
      exact .inl rfl
    · exact .inr (ih hrest hothers)

theorem compileResponse_agree (name other : String) (entry : OrReference Response) :
    Agree (fun one another => one.map CompiledSchema.unnamed = another.map CompiledSchema.unnamed)
      (contract.compileResponse name entry) (contract.compileResponse other entry) := by
  unfold compileResponse
  refine (Agree.refl (fun _ => rfl) _).bind fun response same hresponse => ?_
  subst hresponse
  split
  · exact .ok rfl
  · refine (contract.compileSchema_agree name other _).map fun one another h => ?_
    exact congrArg some h

end Contract

/-- Responses that check the same under a status of the one and another status of the other. -/
structure SameResponses (first second : String) (left right : Table CompiledSchema) : Prop where
  isEmpty : left.isEmpty = right.isEmpty
  check : (left.get? first).map CompiledSchema.unnamed = (right.get? second).map CompiledSchema.unnamed

theorem Table.get?_of_perm {α : Type} {name : String} {own : Option α} {table others : Table α}
    (h : table.Perm ((own.toList.map fun item => (name, item)) ++ others))
    (hfree : ∀ entry ∈ others, entry.1 ≠ name) : table.get? name = own := by
  have hmem : ∀ {entry : String × α}, entry ∈ table → entry.1 = name → some entry.2 = own := by
    intro entry hentry hname
    rcases List.mem_append.1 (h.mem_iff.1 hentry) with hown | hothers
    · obtain ⟨item, hitem, rfl⟩ := List.mem_map.1 hown
      exact (Option.mem_toList.1 hitem).symm
    · exact absurd hname (hfree entry hothers)
  cases hfound : table.find? (·.1 == name) with
  | some entry =>
    rw [Table.get?, hfound]
    have hname := List.find?_some (p := fun entry : String × α => entry.1 == name) hfound
    exact hmem (List.mem_of_find?_eq_some hfound) (eq_of_beq hname)
  | none =>
    rw [Table.get?, hfound]
    cases own with
    | none => rfl
    | some item =>
      have hin : (name, item) ∈ table := h.mem_iff.2 (List.mem_append_left _ (by simp))
      have hout := List.find?_eq_none.1 hfound (name, item) hin
      simp at hout

namespace Contract

variable {contract : Contract} {base : String}

theorem compileResponses_agree {first second : String} {left right : Table (OrReference Response)}
    (h : SameButName first second left right) :
    Agree (SameResponses first second) (contract.compileResponses base left)
      (contract.compileResponses base right) := by
  obtain ⟨entry, others, hleft, hright, hfree⟩ := h
  have hmiddle : Agree (fun one another => ∃ (own same : Option CompiledSchema)
        (rest : Table CompiledSchema), one = (own.toList.map fun schema => (first, schema)) ++ rest ∧
        another = (same.toList.map fun schema => (second, schema)) ++ rest ∧
        own.map CompiledSchema.unnamed = same.map CompiledSchema.unnamed ∧
        ∀ compiled ∈ rest, compiled.1 ≠ first ∧ compiled.1 ≠ second)
      (contract.compileResponses base ((first, entry) :: others))
      (contract.compileResponses base ((second, entry) :: others)) := by
    rw [compileResponses_cons, compileResponses_cons]
    refine (compileResponse_agree _ _ entry).bind fun own same hown => ?_
    cases hrest : contract.compileResponses base others with
    | error e => exact .error _ _
    | ok rest =>
      refine .ok ⟨own, same, rest, rfl, rfl, hown, fun compiled hcompiled => ?_⟩
      obtain ⟨given, hgiven, hname⟩ := List.mem_map.1 (mem_of_compileResponses hrest hcompiled)
      rw [← hname]
      exact hfree given hgiven
  -- the entry with two names is put first in both tables, and back to its place afterwards
  have hone := compileResponses_perm contract base hleft
  have htwo := compileResponses_perm contract base hright.symm
  refine ((hone.trans hmiddle).trans htwo).mono fun one another h => ?_
  obtain ⟨_, ⟨_, hperm, own, same, rest, rfl, rfl, hown, hrest⟩, hother⟩ := h
  refine ⟨?_, ?_⟩
  · have hlength : one.length = another.length := by
      have hsame : own.isSome = same.isSome := by
        rw [← Option.isSome_map (f := CompiledSchema.unnamed), hown, Option.isSome_map]
      rw [hperm.length_eq, ← hother.length_eq]
      cases own <;> cases same <;> simp_all
    rw [Bool.eq_iff_iff, List.isEmpty_iff_length_eq_zero, List.isEmpty_iff_length_eq_zero, hlength]
  · rw [Table.get?_of_perm hperm fun compiled hc => (hrest compiled hc).1,
      Table.get?_of_perm hother.symm fun compiled hc => (hrest compiled hc).2, hown]

/-- Operations that differ in their responses only are compiled alike if these are. -/
theorem compileOperation_agree {left right : Contract} {raw other : Json} (h : SameComponents left right)
    {r : Table CompiledSchema → Table CompiledSchema → Prop}
    (hoperation : Agree (fun one another : Operation => one.parameters = another.parameters ∧
        one.requestBody = another.requestBody ∧ ∀ base,
          Agree r (right.compileResponses base one.responses)
            (right.compileResponses base another.responses))
      (decodeOperation raw) (decodeOperation other))
    (path : String) (method : Method) (shared : List Json) :
    Agree (fun one another => r one.responses another.responses)
      (left.compileOperation path method raw shared)
      (right.compileOperation path method other shared) := by
  unfold compileOperation
  rw [compileRequestBody_congr h, compileResponses_congr h, resolveParameters_congr h,
    compileParameters_congr h]
  refine hoperation.mapError.bind fun one another hsame => ?_
  obtain ⟨hparameters, hbody, hresponses⟩ := hsame
  rw [hparameters, hbody]
  refine Agree.bind_same fun sharedEntries => Agree.bind_same fun requestBody => ?_
  refine (hresponses _).bind fun compiled given hcompiled => ?_
  refine Agree.bind_same fun sharedParameters => Agree.bind_same fun ownParameters => ?_
  exact Agree.bind_same fun parameters => .ok hcompiled

end Contract

/-! ## Reading operations -/

theorem decodeOperation_agree {first second : String} {others : Fields}
    (frame : Frame "responses") (hfirst : others.get? first = none)
    (hsecond : others.get? second = none) (value : Json) :
    Agree (fun one another : Operation => one.parameters = another.parameters ∧
        one.requestBody = another.requestBody ∧
          SameButName first second one.responses another.responses)
      (decodeOperation (.object (frame.fill (.object (others.insert first value)))))
      (decodeOperation (.object (frame.fill (.object (others.insert second value))))) := by
  refine decodeRecord_agree frame rfl (fun record => ?_) fun other hother hname given one another h => ?_
  · exact (decodeTable_agree hfirst hsecond).map fun a b h => ⟨rfl, rfl, h⟩
  · obtain ⟨hparameters, hbody, hresponses⟩ := h
    simp only [List.mem_cons, List.not_mem_nil, or_false] at hother
    rcases hother with rfl | rfl | rfl
    · exact Field.defaulted_agree (fun x => ⟨rfl, hbody, hresponses⟩) given
    · exact Field.defaulted_agree (fun x => ⟨hparameters, rfl, hresponses⟩) given
    · exact absurd rfl hname

theorem decodePathItem_agree {method : Method} (frame : Frame method.name) (left right : Fields) :
    Agree (fun one another : PathItem => one.parameters = another.parameters ∧
        (∀ other, other ≠ method → one.operation other = another.operation other) ∧
          one.operation method = some (.object left) ∧ another.operation method = some (.object right))
      (decodePathItem (.object (frame.fill (.object left))))
      (decodePathItem (.object (frame.fill (.object right)))) := by
  have hfield : (Method.all.map methodField ++
      [Field.defaulted "parameters" (decodeList decodeAny) fun parameters (item : PathItem) =>
        { item with parameters }]).find? (·.name == method.name) = some (methodField method) := by
    cases method <;> rfl
  refine decodeRecord_agree frame hfield (fun record => ?_) fun other hother hname given one another h => ?_
  · refine .ok ⟨rfl, fun other hother => ?_, ?_, ?_⟩
    · simp [hother]
    · simp
    · simp
  · obtain ⟨hparameters, hothers, hone, htwo⟩ := h
    rcases List.mem_append.1 hother with hmethod | hlast
    · obtain ⟨own, -, rfl⟩ := List.mem_map.1 hmethod
      have hne : method ≠ own := fun heq => hname (heq ▸ rfl)
      refine Field.defaulted_agree (fun raw => ⟨hparameters, fun other hother => ?_, ?_, ?_⟩) given
      · simp [hothers other hother]
      · simp [hne, hone]
      · simp [hne, htwo]
    · rw [List.mem_singleton.1 hlast]
      exact Field.defaulted_agree (fun x => ⟨rfl, hothers, hone, htwo⟩) given

theorem decodeDocument_agree (frame : Frame "paths") (left right : Fields) :
    Agree (fun one another : Document => one.components = another.components ∧ one.paths = left ∧
        another.paths = right)
      (decodeDocument (.object (frame.fill (.object left))))
      (decodeDocument (.object (frame.fill (.object right)))) := by
  refine decodeRecord_agree frame rfl (fun record => ?_) fun other hother hname given one another h => ?_
  · have hleft := decodeTable_any left
    have hright := decodeTable_any right
    simp only [Field.defaulted, hleft, hright]
    exact .ok ⟨rfl, rfl, rfl⟩
  · obtain ⟨hcomponents, hone, htwo⟩ := h
    simp only [List.mem_cons, List.not_mem_nil, or_false] at hother
    rcases hother with rfl | rfl | rfl
    · exact Field.defaulted_agree (fun x => ⟨hcomponents, hone, htwo⟩) given
    · exact absurd rfl hname
    · exact Field.defaulted_agree (fun x => ⟨rfl, hone, htwo⟩) given

end ApiContract
