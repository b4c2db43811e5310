import ApiContract.Proofs.Number.Integers
import ApiContract.Proofs.Query.Governing

/-! # Integers that survive coercion

Where a number or an integer is declared, the decimal text of an integer of at most 53 bits becomes the
integer. Neither policy rounds it, and it does not matter at which place of a parameter the text stands.

* `coerceInteger_of_isIntegerText`, `coerceNumber_of_isIntegerText`: the conversions of such a text.
* `leads_coerce`: a governed place of a parameter.
* `integers_survive`: an integer text at a governed place. -/

set_option autoImplicit false

namespace ApiContract

/-! ## Conversions -/

section

variable {n : Int} {text : String}

theorem numberValue_of_hasValue {x : Binary64} (h : x.HasValue n) (hn : n.natAbs < 2 ^ 53) :
    numberValue x = .ofInt n := by
  simp only [numberValue, h.isIntegral, h.truncate_eq, Nat.pow_eq, hn]
  rfl

theorem finiteNumber?_of_isIntegerText (h : IsIntegerText n text) (hn : n.natAbs < 2 ^ 53) :
    ∃ x : Binary64, finiteNumber? text = some x ∧ x.HasValue n := by
  obtain ⟨x, hx, hvalue⟩ := exists_numericText?_integer h hn
  exact ⟨x, by rw [finiteNumber?, hx], hvalue⟩

/-- Neither policy rounds an integer. -/
theorem coerceInteger_of_isIntegerText (policy : CoercionPolicy) (h : IsIntegerText n text)
    (hn : n.natAbs < 2 ^ 53) : coerceInteger policy text = some (.ofInt n) := by
  obtain ⟨x, hx, hvalue⟩ := finiteNumber?_of_isIntegerText h hn
  rw [coerceInteger, hx, Option.bind_some]
  split
  · rw [if_pos hvalue.isIntegral, numberValue_of_hasValue hvalue hn]
  · rw [floorNumber, if_pos hvalue.isIntegral, numberValue_of_hasValue hvalue hn]

theorem coerceNumber_of_isIntegerText (h : IsIntegerText n text) (hn : n.natAbs < 2 ^ 53) :
    coerceNumber text = some (.ofInt n) := by
  obtain ⟨x, hx, hvalue⟩ := finiteNumber?_of_isIntegerText h hn
  rw [coerceNumber, hx, Option.map_some, numberValue_of_hasValue hvalue hn]

theorem coerceValue_of_isIntegerText (policy : CoercionPolicy) {schema : Json}
    (htype : declaredType? schema = some "integer" ∨ declaredType? schema = some "number")
    (h : IsIntegerText n text) (hn : n.natAbs < 2 ^ 53) :
    coerceValue policy schema (.string text) = .ofInt n := by
  rcases htype with hinteger | hnumber
  · rw [coerceValue_integer hinteger, coerceScalar, coerceInteger_of_isIntegerText policy h hn,
      Option.getD_some]
  · rw [coerceValue_number hnumber, coerceScalar, coerceNumber_of_isIntegerText h hn, Option.getD_some]

end

/-! ## Parameters -/

section

variable {coercer : Coercer} {parameters : Fields} {name : String} {value schema inner node : Json}
  {steps : List String}

/-- A node at a governed place of a parameter is coerced there. -/
theorem leads_coerce (henabled : coercer.policy.isEnabled = true) (hparameter : (name, value) ∈ parameters)
    (hschema : coercer.schemas.get? (lowerCase name) = some schema)
    (h : Governs schema value steps inner node) :
    (Json.object (coercer.coerce parameters)).Leads (name :: steps)
      (coerceValue coercer.policy inner node) := by
  rw [Coercer.coerce_eq, if_pos henabled]
  refine .member (List.mem_map.2 ⟨_, hparameter, ?_⟩) (leads_coerceValue h)
  simp only [coerceField, hschema]

/-- The decimal text of an integer becomes the integer wherever a number or an integer is declared for it: in
place of a parameter, at a property, at an item of a list or at a piece of a text that stands for a list. -/
theorem integers_survive {n : Int} {text : String} (henabled : coercer.policy.isEnabled = true)
    (hparameter : (name, value) ∈ parameters)
    (hschema : coercer.schemas.get? (lowerCase name) = some schema)
    (hplace : Governs schema value steps inner (.string text))
    (htype : declaredType? inner = some "integer" ∨ declaredType? inner = some "number")
    (hn : n.natAbs < 2 ^ 53) (htext : IsIntegerText n text) :
    (Json.object (coercer.coerce parameters)).Leads (name :: steps) (.ofInt n) := by
  rw [← coerceValue_of_isIntegerText coercer.policy htype htext hn]
  exact leads_coerce henabled hparameter hschema hplace

/-- The least integer of 53 bits, with blanks around it, between two commas. -/
theorem integers_survive_idsSchema :
    (Json.object ((Coercer.ofSchemas .strict [("PAGE", idsSchema)]).coerce
      [("Page", .objectOf [("ids", .string "7, -9007199254740991\t,0")])])).Leads ["Page", "ids", "1"]
        (.ofInt (-9007199254740991)) := by
  have hschema : (Coercer.ofSchemas .strict [("PAGE", idsSchema)]).schemas.get? (lowerCase "Page") =
      some idsSchema := by
    have hname : lowerCase "Page" = "page" ∧ lowerCase "PAGE" = "page" := by decide +kernel
    rw [Coercer.ofSchemas, List.map_singleton, hname.1, hname.2]
    rfl
  have hpieces : IsCommaSeparated "7, -9007199254740991\t,0" ["7", " -9007199254740991\t", "0"] :=
    ⟨by decide, by decide, by decide⟩
  have hplace : Governs idsSchema (.objectOf [("ids", .string "7, -9007199254740991\t,0")])
      ["ids", naturalText 1] (.objectOf [("type", .array [.string "null", .string "number"])])
      (.string " -9007199254740991\t") :=
    .property (List.mem_singleton.2 rfl) rfl (.piece hpieces rfl rfl (.here _ _))
  have htext : IsIntegerText (-9007199254740991) " -9007199254740991\t" :=
    ⟨[' '], ['\t'], by decide +kernel, List.forall_mem_singleton.2 rfl, List.forall_mem_singleton.2 rfl⟩
  exact integers_survive rfl (List.mem_singleton.2 rfl) hschema hplace (.inr rfl) (by decide) htext

end

end ApiContract
