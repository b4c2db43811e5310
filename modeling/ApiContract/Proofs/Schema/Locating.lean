import ApiContract.Proofs.Schema.Unselected
import ApiContract.Proofs.Schema.Walking

/-! # Where violations of the guard are

A violation of the guard names a place in the instance and a place in the schema. Both are pointers that are
put together on the way, the one behind the root of the instance, the other behind the name of the schema
or the last reference that was followed; and both can be resolved again.

* `IsUnselected`: a value that selects none of the cases of a schema.
* `MetReference`, `BaseReads`: what a pointer into the schema starts with, and how that is read.
* `GuardStep.moves`, `Guarded.resolves`: one step, and a whole run, keep the place of the schema.
* `guardViolations_located`: a violation is where it says. -/

set_option autoImplicit false

namespace ApiContract

/-! ## Values that select no case -/

/-- The discriminator of a schema names a tag, and a value is no object whose tag is a text that selects a
case of the schema. -/
structure IsUnselected (schema value discriminator : Json) (tag : String) (cases : Fields) : Prop where
  described : schema.get? "discriminator" = some discriminator
  named : discriminator.getString? "propertyName" = some tag
  listed : schema.get? casesKeyword = some (.object cases)
  unselected : ∀ text, value.getString? tag = some text → cases.get? text = none

theorem exists_isUnselected {schema value : Json} {message : String}
    (h : selection schema value = .fault message) :
    ∃ discriminator tag cases, IsUnselected schema value discriminator tag cases := by
  unfold selection at h
  split at h
  · cases h
  · rename_i cases tag hcases
    obtain ⟨hlisted, hobject, discriminator, hdescribed, hnamed⟩ := exists_of_casesAndTag? hcases
    obtain ⟨fields, hfields⟩ := exists_object_of_isObject hobject
    refine ⟨discriminator, tag, fields, hdescribed, hnamed, hfields ▸ hlisted, fun text htext => ?_⟩
    rw [htext] at h
    cases hbranch : cases.value.part? text with
    | none =>
      have hnone := Json.part?_eq_none.1 hbranch
      rw [hfields] at hnone
      exact hnone
    | some branch =>
      simp only [hbranch] at h
      cases h

/-! ## The way of the guard -/

section

variable {root inst : Json} {name : String} {stop next : Stop}

/-- The guard follows a reference on its way to a stop. -/
def MetReference (root : Json) (name : String) (inst : Json) (stop : Stop) (reference : String) : Prop :=
  ∃ before after : Stop, Guarded root name inst before ∧ before.schema.reference? = some reference ∧
    GuardStep root root.references before after ∧
      Relation.ReflTransGen (GuardStep root root.references) after stop

/-- What a place on the way to a stop starts with, and the reference as which that is read: the name of the
schema is read as the reference to the root. -/
inductive BaseReads (root : Json) (name : String) (inst : Json) (stop : Stop) :
    String → String → Prop where
  | name : BaseReads root name inst stop name "#"
  | reference {reference : String} (h : MetReference root name inst stop reference) :
    BaseReads root name inst stop reference reference

theorem BaseReads.step {base reference : String} (h : BaseReads root name inst stop base reference)
    (hstep : GuardStep root root.references stop next) :
    BaseReads root name inst next base reference := by
  cases h with
  | name => exact .name
  | reference hmet =>
    obtain ⟨before, after, hbefore, href, hfirst, hafter⟩ := hmet
    exact .reference ⟨before, after, hbefore, href, hfirst, hafter.tail hstep⟩

/-- The place of a stop leads to its schema again. -/
theorem Guarded.resolves (hroot : root.IsDocument) (h : Guarded root name inst stop) :
    ∃ reference, BaseReads root name inst stop stop.place.base reference ∧
      root.resolve? (reference ++ pointerText stop.place.steps) = some stop.schema := by
  induction h with
  | refl => exact ⟨"#", .name, Json.resolve?_nodeReference root []⟩
  | @tail last next hlast hstep ih =>
    obtain ⟨reference, hbase, hresolve⟩ := ih
    rcases hstep.moves with ⟨followed, href, hplace, htarget⟩ | ⟨steps, hplace, hleads⟩
    · refine ⟨followed, ?_, ?_⟩
      · rw [hplace]
        exact .reference ⟨last, next, hlast, href, hstep, .refl⟩
      · rw [hplace]
        simpa [pointerText] using htarget
    · refine ⟨reference, ?_, ?_⟩
      · rw [hplace]
        exact hbase.step hstep
      · rw [hplace, SchemaPlace.child, pointerText_append, ← String.append_assoc,
          Json.resolve?_append_pointerText hresolve,
          Json.follow?_of_leads (hroot.of_resolve? hresolve) hleads]

end

/-- A violation names the place of a value that selects no case of a schema, and the place of the
discriminator of this schema. -/
theorem guardViolations_located {root inst : Json} {name : String} {violation : Violation}
    (hroot : root.IsDocument) (hinst : inst.IsDocument)
    (h : violation ∈ guardViolations root name inst) :
    ∃ stop discriminator tag cases, Guarded root name inst stop ∧
      IsUnselected stop.schema stop.value discriminator tag cases ∧
      inst.resolve? ("#" ++ violation.instancePath) = some stop.value ∧
      ∃ base reference steps, BaseReads root name inst stop base reference ∧
        violation.schemaPointer = some (base ++ pointerText steps ++ "/discriminator") ∧
        root.resolve? (reference ++ pointerText steps) = some stop.schema ∧
        root.resolve? (reference ++ pointerText steps ++ "/discriminator") = some discriminator := by
  obtain ⟨stop, hguarded, -, message, hfault, rfl⟩ := mem_guardViolations_iff.1 h
  obtain ⟨discriminator, tag, cases, hunselected⟩ := exists_isUnselected hfault
  obtain ⟨reference, hbase, hresolve⟩ := hguarded.resolves hroot
  have hkeyword : pointerText ["discriminator"] = "/discriminator" := by decide
  refine ⟨stop, discriminator, tag, cases, hguarded, hunselected, ?_, stop.place.base, reference,
    stop.place.steps, hbase, ?_, hresolve, ?_⟩
  · exact (Json.resolve?_nodeReference inst stop.path).trans
      (Json.follow?_of_leads hinst hguarded.leads)
  · rw [Stop.report, SchemaPlace.text, SchemaPlace.child, pointerText_append, hkeyword,
      String.append_assoc]
  · rw [← hkeyword, Json.resolve?_append_pointerText hresolve, Json.follow?,
      Json.child?_of_get? hunselected.described]
    rfl

/-- A property whose values have cases, which stand behind a reference. -/
def referredCases : Json :=
  .object
    [("definitions", .object [("a/b", .object (withCases "kind" taggedCases taggedAlternatives))]),
      ("properties", .object [("~", .object [("$ref", .string "#/definitions/a~1b")])])]

/-- What the guard says of a property without a tag. -/
def referredViolation : Violation :=
  ⟨some "discriminator", "tag \"kind\" must be string", some "#/definitions/a~1b/discriminator", "/~0"⟩

theorem referredCases_reported :
    referredViolation ∈ guardViolations referredCases "#/x" (.object [("~", .object [])]) :=
  mem_guardViolations_iff.2
    ⟨_, .tail (.single (.property rfl rfl (List.mem_singleton.2 rfl) rfl))
      (.reference rfl (by decide +kernel) rfl), rfl, _, rfl, rfl⟩

theorem referredCases_located :
    referredCases.IsDocument ∧ (Json.object [("~", .object [])]).IsDocument ∧
    referredViolation ∈ guardViolations referredCases "#/x" (.object [("~", .object [])]) ∧
    ∃ stop discriminator tag cases,
      Guarded referredCases "#/x" (.object [("~", .object [])]) stop ∧
      IsUnselected stop.schema stop.value discriminator tag cases ∧
      (Json.object [("~", .object [])]).resolve? ("#" ++ referredViolation.instancePath) =
        some stop.value ∧
      ∃ base reference steps,
        BaseReads referredCases "#/x" (.object [("~", .object [])]) stop base reference ∧
        referredViolation.schemaPointer = some (base ++ pointerText steps ++ "/discriminator") ∧
        referredCases.resolve? (reference ++ pointerText steps) = some stop.schema ∧
        referredCases.resolve? (reference ++ pointerText steps ++ "/discriminator") =
          some discriminator := by
  have hroot : referredCases.IsDocument := ⟨by decide, by decide⟩
  have hinst : (Json.object [("~", .object [])]).IsDocument := ⟨by decide, by decide⟩
  exact ⟨hroot, hinst, referredCases_reported,
    guardViolations_located hroot hinst referredCases_reported⟩

end ApiContract
