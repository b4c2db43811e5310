import ApiContract.Proofs.Schema.Assertions
import ApiContract.Proofs.Schema.Demands

/-! # Members of an object

The keywords `properties`, `patternProperties` and `additionalProperties` share the members of an
object among them. Together they ask one thing of each member, whichever of them applies the schemas.

* `propertySchemas`: the schemas that a name has.
* `MembersPass`, `answers_members`: what the three keywords ask.
* `answers_propertyNames`, `answers_dependencies`: the other keywords for objects. -/

set_option autoImplicit false

namespace ApiContract

/-- The schemas that a name has from `properties` and `patternProperties`. -/
def propertySchemas (keywords : Fields) (name : String) : List Json :=
  (declaredProperty? keywords name).toList ++ (matchingPatterns keywords name).map (·.2)

section

variable {schema inst : Json} {here : Json → Prop} {inside : Json → Json → Prop}
  {keywords : Fields} {value : Part schema}

theorem mem_fieldParts_object {fields : Fields} {name : String} {part : Part (.object fields)} :
    (name, part) ∈ Json.fieldParts (.object fields) ↔ (name, part.value) ∈ fields := by
  rw [Json.mem_fieldParts]
  constructor
  · rintro ⟨given, hgiven, hmem⟩
    cases hgiven
    exact hmem
  · intro hmem
    exact ⟨fields, rfl, hmem⟩

theorem exists_fieldPart {whole : Json} {fields : Fields} {name : String} {value : Json}
    (hwhole : whole = .object fields) (h : (name, value) ∈ fields) :
    ∃ part : Part whole, part.value = value ∧ (name, part) ∈ whole.fieldParts := by
  have hsize : sizeOf value < sizeOf whole := hwhole ▸ Json.sizeOf_member_lt h
  exact ⟨⟨value, hsize⟩, rfl, Json.mem_fieldParts.2 ⟨fields, hwhole, h⟩⟩

theorem passes_propertyApplications {name : String} {part : Part inst} :
    (∀ a ∈ (propertyApplications keywords name part : List (Application schema inst)),
        a.Passes here inside) ↔
      ∀ sub ∈ propertySchemas keywords name, inside sub part.value := by
  simp only [propertyApplications, propertySchemas, List.forall_mem_append, List.forall_mem_map]
  rfl

theorem propertyApplications_isEmpty {name : String} {part : Part inst} :
    (propertyApplications keywords name part : List (Application schema inst)).isEmpty = true ↔
      propertySchemas keywords name = [] := by
  simp [propertyApplications, propertySchemas]

theorem passes_closedApplications {fields : Fields} {rest : Option Json} :
    (∀ a ∈ (closedApplications keywords rest : List (Application schema (.object fields))),
        a.Passes here inside) ↔
      ∀ name value, (name, value) ∈ fields →
        (∀ sub ∈ propertySchemas keywords name, inside sub value) ∧
          (propertySchemas keywords name = [] → ∀ sub, rest = some sub → inside sub value) := by
  have hone : ∀ name (part : Part (Json.object fields)),
      (∀ a : Application schema (.object fields),
          a ∈ (if (propertyApplications keywords name part :
                List (Application schema (.object fields))).isEmpty then
              rest.toList.map fun sub =>
                .inside ["additionalProperties"] sub [name] part
            else propertyApplications keywords name part) → a.Passes here inside) ↔
        (∀ sub ∈ propertySchemas keywords name, inside sub part.value) ∧
          (propertySchemas keywords name = [] → ∀ sub, rest = some sub → inside sub part.value) := by
    intro name part
    by_cases hnone : propertySchemas keywords name = []
    · rw [if_pos (propertyApplications_isEmpty.2 hnone), hnone, List.forall_mem_map]
      simp [Application.Passes]
    · rw [if_neg (mt propertyApplications_isEmpty.1 hnone), passes_propertyApplications]
      simp [hnone]
  unfold closedApplications
  rw [List.forall_mem_flatMap]
  constructor
  · intro h name value hmem
    obtain ⟨part, rfl, hpart⟩ := exists_fieldPart rfl hmem
    exact (hone name part).1 (h (name, part) hpart)
  · rintro h ⟨name, part⟩ hpart
    exact (hone name part).2 (h name part.value (mem_fieldParts_object.1 hpart))

theorem propertySchemas_eq_nil_iff {name : String} : propertySchemas keywords name = [] ↔
    ((declaredProperty? keywords name).isNone && (matchingPatterns keywords name).isEmpty) = true := by
  rw [propertySchemas, List.append_eq_nil_iff, Bool.and_eq_true, List.isEmpty_iff,
    List.map_eq_nil_iff, Option.isNone_iff_eq_none]
  cases declaredProperty? keywords name <;> simp

theorem unexpectedNames_eq_nil_iff {fields : Fields} : unexpectedNames keywords fields = [] ↔
    ∀ name value, (name, value) ∈ fields → propertySchemas keywords name ≠ [] := by
  simp only [unexpectedNames, List.filter_eq_nil_iff, List.forall_mem_map, ne_eq,
    propertySchemas_eq_nil_iff]
  exact ⟨fun h name value hmem => h (name, value) hmem, fun h field hfield => h field.1 field.2 hfield⟩

/-- What the keywords for the properties of an object ask of its members. -/
def MembersPass (inside : Json → Json → Prop) (keywords fields : Fields) : Prop :=
  ∀ name value, (name, value) ∈ fields →
    (∀ sub ∈ propertySchemas keywords name, inside sub value) ∧
      (propertySchemas keywords name = [] →
        ∀ sub, keywords.get? "additionalProperties" = some sub → isItemSchema sub = true →
          inside sub value)

theorem propertySchemas_of_absent {name : String} (hprops : keywords.get? "properties" = none)
    (hpatterns : keywords.get? "patternProperties" = none) : propertySchemas keywords name = [] := by
  rw [propertySchemas, declaredProperty?, matchingPatterns, hprops, hpatterns]
  rfl

theorem passes_closedDemands {fields : Fields} (hfalse : ∀ value, ¬ inside (.bool false) value)
    (hclosed : keywords.get? "additionalProperties" = some (.bool false)) :
    (∀ demand ∈ (closedDemands keywords fields : List (Demand (Application schema (.object fields)))),
        demand.Holds (Application.Passes here inside)) ↔ MembersPass inside keywords fields := by
  have hmembers : MembersPass inside keywords fields ↔ ∀ name value, (name, value) ∈ fields →
      (∀ sub ∈ propertySchemas keywords name, inside sub value) ∧
        propertySchemas keywords name ≠ [] := by
    unfold MembersPass
    refine forall_congr' fun name => forall_congr' fun value => imp_congr_right fun _ =>
      and_congr_right fun _ => imp_congr_right fun _ => ?_
    constructor
    · exact fun h => hfalse value (h _ hclosed rfl)
    · exact fun h => h.elim
  rw [hmembers]
  unfold closedDemands
  by_cases hkeys : (keywords.hasKey "properties" || keywords.hasKey "patternProperties") = true
  · rw [if_pos hkeys, List.forall_mem_cons, Demand.Holds, passes_closedApplications]
    by_cases hnames : unexpectedNames keywords fields = []
    · have hall := unexpectedNames_eq_nil_iff.1 hnames
      simp only [hnames, List.isEmpty_nil, if_true, List.not_mem_nil]
      constructor
      · exact fun h name value hmem => ⟨(h.1 name value hmem).1, hall name value hmem⟩
      · intro h
        refine ⟨fun name value hmem => ⟨(h name value hmem).1, fun _ sub hsub => ?_⟩, ?_⟩
        · cases hsub
        · intro demand hdemand
          exact hdemand.elim
    · have hsome : ¬ ∀ name value, (name, value) ∈ fields → propertySchemas keywords name ≠ [] :=
        mt unexpectedNames_eq_nil_iff.2 hnames
      simp only [List.isEmpty_iff, hnames, if_false, List.forall_mem_singleton, Demand.Holds]
      constructor
      · exact fun h => h.2.elim
      · exact fun h => absurd (fun name value hmem => (h name value hmem).2) hsome
  · rw [if_neg hkeys]
    rw [Bool.or_eq_true, not_or, Bool.not_eq_true, Bool.not_eq_true, Fields.hasKey_eq_false_iff,
      Fields.hasKey_eq_false_iff] at hkeys
    have hnone : ∀ name, propertySchemas keywords name = [] :=
      fun _ => propertySchemas_of_absent hkeys.1 hkeys.2
    cases fields with
    | nil => simp
    | cons field rest =>
      constructor
      · exact fun h => (h _ (List.mem_singleton.2 rfl)).elim
      · exact fun h => absurd (hnone field.1) (h field.1 field.2 (List.mem_cons_self ..)).2

theorem asks_additionalProperties {fields : Fields} {value : Part schema}
    (hfalse : ∀ value, ¬ inside (.bool false) value)
    (hkey : keywords.get? "additionalProperties" = some value.value)
    (hrestricts : restrictsProperties keywords = true) :
    Asks here inside keywords "additionalProperties" value (.object fields) ↔
      MembersPass inside keywords fields := by
  obtain ⟨given, hsmaller⟩ := value
  have hgiven : keywords.get? "additionalProperties" = some given := hkey
  unfold Asks
  rw [restrictsProperties, hgiven] at hrestricts
  cases given with
  | bool b =>
    cases b with
    | true => cases hrestricts
    | false =>
      have hdemands : (applicatorDemands keywords "additionalProperties" ⟨.bool false, hsmaller⟩ :
          List (Demand (Application schema (.object fields)))) = closedDemands keywords fields := rfl
      rw [hdemands]
      exact passes_closedDemands hfalse hgiven
  | object sub =>
    have hdemands : (applicatorDemands keywords "additionalProperties" ⟨.object sub, hsmaller⟩ :
        List (Demand (Application schema (.object fields)))) =
          [.all (closedApplications keywords (some (.object sub)))] := rfl
    rw [hdemands, List.forall_mem_singleton, Demand.Holds, passes_closedApplications, MembersPass]
    simp [hgiven, isItemSchema]
  | _ => cases hrestricts

theorem declaredProperty?_eq_some {name : String} {sub : Json} :
    declaredProperty? keywords name = some sub ↔
      ∃ properties, keywords.get? "properties" = some (.object properties) ∧
        Fields.get? name properties = some sub := by
  unfold declaredProperty?
  cases hvalue : keywords.get? "properties" with
  | none => simp
  | some value => cases value <;> simp

theorem declaredProperty?_of_object {properties : Fields} {name : String}
    (h : keywords.get? "properties" = some (.object properties)) :
    declaredProperty? keywords name = Fields.get? name properties := by
  rw [declaredProperty?, h]

theorem matchingPatterns_of_object {patterns : Fields} {name : String}
    (h : keywords.get? "patternProperties" = some (.object patterns)) :
    matchingPatterns keywords name = patterns.filter fun p => matchesPattern p.1 name := by
  rw [matchingPatterns, h]

theorem asks_properties_of_restricted {fields : Fields} {value : Part schema}
    (hrestricts : restrictsProperties keywords = true) :
    Asks here inside keywords "properties" value (.object fields) := by
  refine asks_of_nil ?_
  show (if restrictsProperties keywords then [] else _) = _
  rw [if_pos hrestricts]

theorem asks_patternProperties_of_restricted {fields : Fields} {value : Part schema}
    (hrestricts : restrictsProperties keywords = true) :
    Asks here inside keywords "patternProperties" value (.object fields) := by
  refine asks_of_nil ?_
  show (if restrictsProperties keywords then [] else _) = _
  rw [if_pos hrestricts]

theorem asks_additionalProperties_of_open {fields : Fields} {value : Part schema}
    (hkey : keywords.get? "additionalProperties" = some value.value)
    (hopen : restrictsProperties keywords = false) :
    Asks here inside keywords "additionalProperties" value (.object fields) := by
  obtain ⟨given, hsmaller⟩ := value
  have hgiven : keywords.get? "additionalProperties" = some given := hkey
  refine asks_of_nil ?_
  rw [restrictsProperties, hgiven] at hopen
  cases given with
  | bool b =>
    cases b with
    | true => rfl
    | false => cases hopen
  | object _ => cases hopen
  | _ => rfl

theorem asks_properties {fields : Fields} {value : Part schema} (ho : fields.Ordered)
    (hkey : keywords.get? "properties" = some value.value) (hvalue : value.value.ordered = true)
    (hopen : restrictsProperties keywords = false) :
    Asks here inside keywords "properties" value (.object fields) ↔
      ∀ name value, (name, value) ∈ fields →
        ∀ sub, declaredProperty? keywords name = some sub → inside sub value := by
  obtain ⟨given, hsmaller⟩ := value
  have hgiven : keywords.get? "properties" = some given := hkey
  cases given with
  | object properties =>
    have hdemands : (applicatorDemands keywords "properties" ⟨.object properties, hsmaller⟩ :
        List (Demand (Application schema (.object fields)))) =
          if restrictsProperties keywords then [] else [.all (declaredApplications properties)] := rfl
    have hp : Fields.Ordered properties := (Json.ordered_object.1 hvalue).1
    rw [Asks, hdemands, hopen, if_neg (by simp), List.forall_mem_singleton, Demand.Holds]
    simp only [declaredProperty?_of_object hgiven, declaredApplications,
      List.forall_mem_flatMap, List.forall_mem_map, Option.mem_toList, Application.Passes]
    constructor
    · intro h name value hmem sub hsub
      obtain ⟨part, rfl, -⟩ := exists_fieldPart rfl hmem
      exact h (name, sub) (Fields.mem_of_get? hsub) part
        (Json.part?_eq_some.2 (Fields.get?_of_mem ho hmem))
    · rintro h ⟨name, sub⟩ hsub part hpart
      exact h name part.value (Fields.mem_of_get? (Json.part?_eq_some.1 hpart)) sub
        (Fields.get?_of_mem hp hsub)
  | _ =>
    refine iff_of_true (asks_of_nil (ite_self (c := _) _)) fun name value _ sub hsub => ?_
    rw [declaredProperty?, hgiven] at hsub
    cases hsub

theorem asks_patternProperties {fields : Fields} {value : Part schema}
    (hkey : keywords.get? "patternProperties" = some value.value)
    (hopen : restrictsProperties keywords = false) :
    Asks here inside keywords "patternProperties" value (.object fields) ↔
      ∀ name value, (name, value) ∈ fields →
        ∀ p ∈ matchingPatterns keywords name, inside p.2 value := by
  obtain ⟨given, hsmaller⟩ := value
  have hgiven : keywords.get? "patternProperties" = some given := hkey
  cases given with
  | object patterns =>
    have hdemands : (applicatorDemands keywords "patternProperties" ⟨.object patterns, hsmaller⟩ :
        List (Demand (Application schema (.object fields)))) =
          if restrictsProperties keywords then [] else [.all (patternApplications patterns)] := rfl
    rw [Asks, hdemands, hopen, if_neg (by simp), List.forall_mem_singleton, Demand.Holds]
    simp only [matchingPatterns_of_object hgiven, patternApplications,
      List.forall_mem_flatMap, List.forall_mem_map, List.mem_filter, Application.Passes]
    constructor
    · intro h name value hmem p hp
      obtain ⟨part, rfl, hpart⟩ := exists_fieldPart rfl hmem
      exact h p hp.1 (name, part) ⟨hpart, hp.2⟩
    · rintro h p hp ⟨name, part⟩ ⟨hpart, hmatches⟩
      exact h name part.value (mem_fieldParts_object.1 hpart) p ⟨hp, hmatches⟩
  | _ =>
    refine iff_of_true (asks_of_nil (ite_self (c := _) _)) fun name value _ p hp => ?_
    rw [matchingPatterns, hgiven] at hp
    cases hp

theorem members_of_restricted {fields : Fields} (hfalse : ∀ value, ¬ inside (.bool false) value)
    (hrestricts : restrictsProperties keywords = true) :
    Answers here inside keywords "properties" (.object fields) ∧
      Answers here inside keywords "patternProperties" (.object fields) ∧
        Answers here inside keywords "additionalProperties" (.object fields) ↔
      MembersPass inside keywords fields := by
  have hsome : ∃ given, keywords.get? "additionalProperties" = some given := by
    cases hkey : keywords.get? "additionalProperties" with
    | none => rw [restrictsProperties, hkey] at hrestricts; cases hrestricts
    | some given => exact ⟨given, rfl⟩
  obtain ⟨given, hgiven⟩ := hsome
  obtain ⟨value, hvalue, hasks⟩ : ∃ value : Part (.object keywords), value.value = given ∧
      (Answers here inside keywords "additionalProperties" (.object fields) ↔
        Asks here inside keywords "additionalProperties" value (.object fields)) :=
    answers_of_present hgiven
  rw [hasks, asks_additionalProperties hfalse (hvalue ▸ hgiven) hrestricts]
  constructor
  · exact fun h => h.2.2
  · exact fun h => ⟨fun _ _ => asks_properties_of_restricted hrestricts,
      fun _ _ => asks_patternProperties_of_restricted hrestricts, h⟩

theorem not_isItemSchema_of_open {sub : Json} (hopen : restrictsProperties keywords = false)
    (hsub : keywords.get? "additionalProperties" = some sub) : isItemSchema sub ≠ true := by
  intro hitem
  rw [restrictsProperties, hsub] at hopen
  cases sub with
  | bool b => cases b <;> simp [isItemSchema] at hopen hitem
  | object _ => simp at hopen
  | _ => simp [isItemSchema] at hitem

theorem answers_properties {fields : Fields} (ho : fields.Ordered)
    (hordered : (Json.object keywords).ordered = true)
    (hopen : restrictsProperties keywords = false) :
    Answers here inside keywords "properties" (.object fields) ↔
      ∀ name value, (name, value) ∈ fields →
        ∀ sub, declaredProperty? keywords name = some sub → inside sub value := by
  cases hkey : keywords.get? "properties" with
  | none =>
    refine iff_of_true (answers_of_absent hkey) fun name value _ sub hsub => ?_
    rw [declaredProperty?, hkey] at hsub
    cases hsub
  | some given =>
    obtain ⟨value, hvalue, hasks⟩ := answers_of_present hkey
    have hgiven : given.ordered = true := Json.ordered_of_get? hordered hkey
    rw [hasks, asks_properties ho (hvalue ▸ hkey) (hvalue ▸ hgiven) hopen]

theorem answers_patternProperties {fields : Fields}
    (hopen : restrictsProperties keywords = false) :
    Answers here inside keywords "patternProperties" (.object fields) ↔
      ∀ name value, (name, value) ∈ fields →
        ∀ p ∈ matchingPatterns keywords name, inside p.2 value := by
  cases hkey : keywords.get? "patternProperties" with
  | none =>
    refine iff_of_true (answers_of_absent hkey) fun name value _ p hp => ?_
    rw [matchingPatterns, hkey] at hp
    cases hp
  | some given =>
    obtain ⟨value, hvalue, hasks⟩ := answers_of_present hkey
    rw [hasks, asks_patternProperties (hvalue ▸ hkey) hopen]

theorem members_of_open {fields : Fields} (ho : fields.Ordered)
    (hordered : (Json.object keywords).ordered = true)
    (hopen : restrictsProperties keywords = false) :
    Answers here inside keywords "properties" (.object fields) ∧
      Answers here inside keywords "patternProperties" (.object fields) ∧
        Answers here inside keywords "additionalProperties" (.object fields) ↔
      MembersPass inside keywords fields := by
  rw [answers_properties ho hordered hopen, answers_patternProperties hopen]
  constructor
  · rintro ⟨hdeclared, hmatched, -⟩ name value hmem
    refine ⟨fun sub hsub => ?_, fun _ sub hsub hitem =>
      absurd hitem (not_isItemSchema_of_open hopen hsub)⟩
    rcases List.mem_append.1 hsub with h | h
    · exact hdeclared name value hmem sub (Option.mem_toList.1 h)
    · obtain ⟨p, hp, rfl⟩ := List.mem_map.1 h
      exact hmatched name value hmem p hp
  · intro h
    refine ⟨fun name value hmem sub hsub => ?_, fun name value hmem p hp => ?_, fun value hvalue =>
      asks_additionalProperties_of_open hvalue hopen⟩
    · exact (h name value hmem).1 sub (List.mem_append_left _ (Option.mem_toList.2 hsub))
    · exact (h name value hmem).1 p.2 (List.mem_append_right _ (List.mem_map_of_mem hp))

/-- The keywords for the properties of an object together. -/
theorem answers_members {fields : Fields} (hfalse : ∀ value, ¬ inside (.bool false) value)
    (ho : fields.Ordered) (hordered : (Json.object keywords).ordered = true) :
    Answers here inside keywords "properties" (.object fields) ∧
      Answers here inside keywords "patternProperties" (.object fields) ∧
        Answers here inside keywords "additionalProperties" (.object fields) ↔
      MembersPass inside keywords fields := by
  cases hrestricts : restrictsProperties keywords with
  | true => exact members_of_restricted hfalse hrestricts
  | false => exact members_of_open ho hordered hrestricts

theorem asks_propertyNames {fields : Fields} {value : Part schema}
    (hfalse : ∀ value, ¬ inside (.bool false) value) :
    Asks here inside keywords "propertyNames" value (.object fields) ↔
      (isItemSchema value.value = true → ∀ name part, (name, part) ∈ fields →
        inside value.value (.string name)) := by
  obtain ⟨given, hsmaller⟩ := value
  cases given with
  | bool b =>
    cases b with
    | true => exact iff_of_true (asks_of_nil rfl) fun hitem => by cases hitem
    | false =>
      have hdemands : (applicatorDemands keywords "propertyNames" ⟨.bool false, hsmaller⟩ :
          List (Demand (Application schema (.object fields)))) =
            if fields.isEmpty then []
            else [.fails (.about "propertyNames"
              ("False schema does not allow " ++ (Json.object fields).compact))] := rfl
      rw [Asks, hdemands]
      cases fields with
      | nil => simp
      | cons field rest =>
        refine iff_of_false (fun h => h _ (List.mem_singleton.2 rfl)) fun h => ?_
        exact hfalse _ (h rfl field.1 field.2 (List.mem_cons_self ..))
  | object sub =>
    have hdemands : (applicatorDemands keywords "propertyNames" ⟨.object sub, hsmaller⟩ :
        List (Demand (Application schema (.object fields)))) =
          [.names ((Json.object fields).nameParts.map fun name =>
            .inside ["propertyNames"] (.object sub) [] name)] := rfl
    rw [Asks, hdemands, List.forall_mem_singleton, Demand.Holds, List.forall_mem_map]
    constructor
    · intro h _ name part hmem
      exact h ⟨.string name, Json.sizeOf_name_lt hmem⟩
        (Json.mem_nameParts.2 ⟨fields, (name, part), rfl, hmem, rfl⟩)
    · intro h part hpart
      obtain ⟨given, field, hgiven, hfield, hname⟩ := Json.mem_nameParts.1 hpart
      cases hgiven
      rw [Application.Passes, hname]
      exact h rfl field.1 field.2 hfield
  | _ => exact iff_of_true (asks_of_nil rfl) fun hitem => by cases hitem

/-- What a dependency asks of an object that has the property. -/
def DependencyHolds (here : Json → Prop) (fields : Fields) : Json → Prop
  | .array names => ∀ name, .string name ∈ names → fields.hasKey name = true
  | sub => here sub

theorem DependencyHolds.imp {here there : Json → Prop} {fields : Fields} {dependency : Json}
    (himp : here dependency → there dependency) (h : DependencyHolds here fields dependency) :
    DependencyHolds there fields dependency := by
  cases dependency with
  | array names => exact h
  | _ => exact himp h

theorem asks_dependencies {fields : Fields} {value : Part schema} :
    Asks here inside keywords "dependencies" value (.object fields) ↔
      ∀ entries name dependency, value.value = .object entries → (name, dependency) ∈ entries →
        fields.hasKey name = true → DependencyHolds here fields dependency := by
  have hone : ∀ (name : String) (part : Part value.value),
      (∀ demand : Demand (Application schema (.object fields)),
        demand ∈ (match part.value with
          | .array names => (Assertion.missingNames names fields).map fun name =>
              Demand.fails (.about "dependencies" (Assertion.requiredMessage name))
          | _ => [Demand.all [Application.here ["dependencies", name] (value.inner part)]]) →
          demand.Holds (Application.Passes here inside)) ↔
        DependencyHolds here fields part.value := by
    intro name part
    split
    · rename_i names heq
      rw [heq, DependencyHolds, ← Assertion.missingNames_eq_nil_iff, List.forall_mem_map]
      cases Assertion.missingNames names fields with
      | nil => simp
      | cons missing rest =>
        exact iff_of_false (fun h => h missing (List.mem_cons_self ..)) (by simp)
    · rename_i hno
      have hdep : DependencyHolds here fields part.value = here part.value := by
        unfold DependencyHolds
        split
        · rename_i names heq
          exact absurd heq (hno names)
        · rfl
      rw [hdep, List.forall_mem_singleton, Demand.Holds, List.forall_mem_singleton]
      rfl
  have hdemands : (applicatorDemands keywords "dependencies" value :
      List (Demand (Application schema (.object fields)))) = dependencyDemands value fields := rfl
  rw [Asks, hdemands, dependencyDemands, List.forall_mem_flatMap]
  constructor
  · intro h entries name dependency hvalue hmem hkey
    obtain ⟨part, rfl, hpart⟩ := exists_fieldPart hvalue hmem
    have hentry := h (name, part) hpart
    rw [if_pos hkey] at hentry
    exact (hone name part).1 hentry
  · rintro h ⟨name, part⟩ hpart
    obtain ⟨entries, hentries, hmem⟩ := Json.mem_fieldParts.1 hpart
    by_cases hkey : fields.hasKey name = true
    · rw [if_pos hkey]
      exact (hone name part).2 (h entries name part.value hentries hmem hkey)
    · rw [if_neg hkey]
      simp

theorem answers_propertyNames {fields : Fields} (hfalse : ∀ value, ¬ inside (.bool false) value) :
    Answers here inside keywords "propertyNames" (.object fields) ↔
      ∀ sub, keywords.get? "propertyNames" = some sub → isItemSchema sub = true →
        ∀ name value, (name, value) ∈ fields → inside sub (.string name) :=
  answers_iff fun _ _ => asks_propertyNames hfalse

theorem answers_dependencies {fields : Fields} :
    Answers here inside keywords "dependencies" (.object fields) ↔
      ∀ entries, keywords.get? "dependencies" = some (.object entries) →
        ∀ name dependency, (name, dependency) ∈ entries → fields.hasKey name = true →
          DependencyHolds here fields dependency := by
  have hasked : Answers here inside keywords "dependencies" (.object fields) ↔
      ∀ given, keywords.get? "dependencies" = some given → ∀ entries name dependency,
        given = .object entries → (name, dependency) ∈ entries → fields.hasKey name = true →
          DependencyHolds here fields dependency :=
    answers_iff fun _ _ => asks_dependencies
  rw [hasked]
  constructor
  · exact fun h entries hentries name dependency => h _ hentries entries name dependency rfl
  · rintro h given hgiven entries name dependency rfl
    exact h entries hgiven name dependency

/-- What the keywords for members and their names ask of any instance. -/
theorem answers_object (hfalse : ∀ value, ¬ inside (.bool false) value)
    (hinst : inst.ordered = true) (hordered : (Json.object keywords).ordered = true) :
    (Answers here inside keywords "properties" inst ∧
        Answers here inside keywords "patternProperties" inst ∧
          Answers here inside keywords "additionalProperties" inst) ∧
        Answers here inside keywords "propertyNames" inst ∧
          Answers here inside keywords "dependencies" inst ↔
      (∀ fields, inst = .object fields → MembersPass inside keywords fields) ∧
        (∀ fields, inst = .object fields → ∀ sub, keywords.get? "propertyNames" = some sub →
          isItemSchema sub = true → ∀ name value, (name, value) ∈ fields →
            inside sub (.string name)) ∧
        ∀ fields : Fields, inst = .object fields →
          ∀ entries, keywords.get? "dependencies" = some (.object entries) →
            ∀ name dependency, (name, dependency) ∈ entries → fields.hasKey name = true →
              DependencyHolds here fields dependency := by
  cases inst with
  | object fields =>
    have ho : Fields.Ordered fields := (Json.ordered_object.1 hinst).1
    rw [answers_members hfalse ho hordered, answers_propertyNames hfalse, answers_dependencies]
    simp only [Json.object.injEq, forall_eq']
  | _ =>
    refine iff_of_true ⟨⟨?_, ?_, ?_⟩, ?_, ?_⟩ (by simp)
    all_goals exact answers_of_kind fun _ => rfl

end

end ApiContract
