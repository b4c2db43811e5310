import ApiContract.Schema.MetaSchema
import ApiContract.Schema.Place
import ApiContract.Proofs.Schema.Applying

/-! # The keyword that is blamed

Clients are told which keyword failed: the last of the steps to it that is no place in a list. Where the
schema that allows nothing fails, the steps end at this schema and not at a keyword, and the last of them
may be a name.

* `keywordNames`: the keywords that a schema may have.
* `StepsOn`: the steps by which evaluation goes on from a schema.
* `exists_of_mem_findingsWith`: a finding comes from the schema itself or from one it goes on to.
* `Blamed`: what evaluation may blame, and `blamed_of_mem_findings`: it blames nothing else. -/

set_option autoImplicit false

namespace ApiContract

/-! ## The last keyword of steps -/

theorem keywordOf?_append (front back : List String) :
    keywordOf? (front ++ back) = (keywordOf? back).or (keywordOf? front) := by
  rw [keywordOf?, List.reverse_append, List.find?_append]
  rfl

/-- The names of all keywords. -/
def keywordNames : List String := MetaSchema.keywords.map Prod.fst

/-- The keywords whose values hold schemas by name or by place. -/
def nestingKeywords : List String :=
  ["properties", "patternProperties", "dependencies", "allOf", "anyOf", "oneOf", "items"]

theorem keywordOf?_keyword : ∀ keyword ∈ keywordNames, keywordOf? [keyword] = some keyword := by
  decide +kernel

theorem nestingKeywords_subset : nestingKeywords ⊆ keywordNames := by
  decide +kernel

theorem applicatorKeywords_subset : applicatorKeywords ⊆ keywordNames := by
  decide +kernel

theorem assertionKeywords_subset : Assertion.keywords ⊆ keywordNames := by
  decide +kernel

theorem keywordOf?_single {step name : String} (h : keywordOf? [step] = some name) : name = step := by
  have hmem := List.mem_of_find?_eq_some h
  simpa using hmem

/-! ## Steps within a schema -/

/-- Steps by which evaluation goes on from a schema: along a keyword, or to a schema that the value of a
keyword holds by name or by place. -/
inductive StepsOn (schema sub : Json) : List String → Prop where
  | keyword {keyword : String} {part : Json} (hkeyword : keyword ∈ keywordNames)
    (hpart : schema.Leads [keyword] part) : StepsOn schema sub [keyword]
  | nested {keyword name : String} (hkeyword : keyword ∈ nestingKeywords)
    (hsub : schema.Leads [keyword, name] sub) : StepsOn schema sub [keyword, name]

namespace Application

variable {schema inst : Json}

/-- The steps to the schema that is applied. -/
def steps : Application schema inst → List String
  | here steps _ => steps
  | inside steps _ _ _ => steps

/-- The steps to the part of the instance that it is applied to. -/
def place : Application schema inst → List String
  | here _ _ => []
  | inside _ _ place _ => place

/-- The schema that is applied. -/
def applied : Application schema inst → Json
  | here _ part => part.value
  | inside _ sub _ _ => sub

end Application

namespace Demand

variable {α : Type}

/-- The findings that a demand has of its own. -/
def own : Demand α → List Finding
  | fails finding => [finding]
  | some _ otherwise => [otherwise]
  | one _ fewer more => [fewer, more]
  | not _ finding => [finding]
  | _ => []

/-- The applications that a demand may carry out. -/
def applications : Demand α → List α
  | fails _ => []
  | all applications => applications
  | some applications _ => applications
  | one applications _ _ => applications
  | not application _ => [application]
  | branch test yes no => test :: (yes ++ no)
  | names applications => applications

theorem Applies.mem {passes : α → Prop} {demand : Demand α} {a : α} (h : demand.Applies passes a) :
    a ∈ demand.applications := by
  cases demand with
  | fails finding => cases h
  | not application finding => exact List.mem_singleton.2 h
  | branch test yes no =>
    rcases h with rfl | ⟨-, hyes⟩ | ⟨-, hno⟩
    · exact List.mem_cons_self
    · exact List.mem_cons_of_mem _ (List.mem_append_left _ hyes)
    · exact List.mem_cons_of_mem _ (List.mem_append_right _ hno)
  | all applications => exact h
  | some applications otherwise => exact h
  | one applications fewer more => exact h
  | names applications => exact h

theorem Applies.congr {p q : α → Prop} {demand : Demand α} {a : α} (ha : demand.Applies p a)
    (h : ∀ a, p a ↔ q a) : demand.Applies q a := by
  have hpq : p = q := funext fun a => propext (h a)
  exact hpq ▸ ha

/-- A finding of a demand is its own or that of an application it carries out. -/
theorem mem_findings {run : α → List Finding} {demand : Demand α} {finding : Finding}
    (h : finding ∈ demand.findings run) :
    finding ∈ demand.own ∨ ∃ a, demand.Applies (fun a => run a = []) a ∧
      ∃ given ∈ run a, finding.schemaSteps = given.schemaSteps := by
  cases demand with
  | fails given => exact .inl h
  | all applications =>
    obtain ⟨a, ha, hfinding⟩ := List.mem_flatMap.1 h
    exact .inr ⟨a, ha, finding, hfinding, rfl⟩
  | some applications otherwise =>
    rw [findings] at h
    split at h
    · cases h
    · exact .inl h
  | one applications fewer more =>
    rw [findings] at h
    split at h
    · exact .inl (List.mem_cons.2 (.inl (List.mem_singleton.1 h)))
    · cases h
    · exact .inl (List.mem_cons_of_mem _ h)
  | not application given =>
    rw [findings] at h
    split at h
    · exact .inl h
    · cases h
  | branch test yes no =>
    rw [findings] at h
    split at h
    · rename_i htest
      obtain ⟨a, ha, hfinding⟩ := List.mem_flatMap.1 h
      exact .inr ⟨a, .inr (.inl ⟨List.isEmpty_iff.1 htest, ha⟩), finding, hfinding, rfl⟩
    · rename_i htest
      obtain ⟨a, ha, hfinding⟩ := List.mem_flatMap.1 h
      exact .inr ⟨a, .inr (.inr ⟨fun hnil => htest (List.isEmpty_iff.2 hnil), ha⟩), finding, hfinding,
        rfl⟩
  | names applications =>
    obtain ⟨a, ha, hmem⟩ := List.mem_flatMap.1 h
    obtain ⟨given, hgiven, rfl⟩ := List.mem_map.1 hmem
    exact .inr ⟨a, ha, given, hgiven, rfl⟩

end Demand

/-! ## What keywords apply -/

section

variable {keywords : Fields} {key : String} {inst : Json}

/-- An application of a keyword goes on from its schema. -/
def Application.StepsOn {schema inst : Json} (a : Application schema inst) : Prop :=
  ApiContract.StepsOn schema a.applied a.steps

theorem Json.Leads.of_itemPart {whole : Json} {part : Part whole} {i : Nat}
    (h : whole.itemParts[i]? = some part) : whole.Leads [naturalText i] part.value := by
  have hitem : (listed whole)[i]? = some part.value := exists_itemPart.1 ⟨part, rfl, h⟩
  cases whole with
  | array items => exact .of_getElem? hitem
  | _ => cases hitem

theorem Json.Leads.first {whole part : Json} {step : String} {rest : List String}
    (h : whole.Leads (step :: rest) part) : ∃ inner, whole.Leads [step] inner := by
  cases h with
  | member hmem _ => exact ⟨_, .member hmem (.here _)⟩
  | item hitem _ => exact ⟨_, .item hitem (.here _)⟩

theorem Json.Leads.of_fieldPart {whole : Json} {entry : String × Part whole}
    (h : entry ∈ whole.fieldParts) : whole.Leads [entry.1] entry.2.value := by
  obtain ⟨fields, rfl, hmem⟩ := Json.mem_fieldParts.1 h
  exact .member hmem (.here _)

theorem stepsOn_keyword {keyword : String} {part sub : Json} (hkeyword : keyword ∈ keywordNames)
    (hmem : (keyword, part) ∈ keywords) : StepsOn (.object keywords) sub [keyword] :=
  .keyword hkeyword (.member hmem (.here part))

theorem stepsOn_nested {keyword name : String} {value sub : Json} (hkeyword : keyword ∈ nestingKeywords)
    (hmem : (keyword, value) ∈ keywords) (hsub : value.Leads [name] sub) :
    StepsOn (.object keywords) sub [keyword, name] :=
  .nested hkeyword (.member hmem hsub)

theorem stepsOn_alternatives {value : Part (.object keywords)} (hkey : key ∈ nestingKeywords)
    (hmem : (key, value.value) ∈ keywords) {a : Application (.object keywords) inst}
    (ha : a ∈ alternatives key value) : a.StepsOn := by
  obtain ⟨⟨i, part⟩, hpart, rfl⟩ := List.mem_map.1 ha
  exact stepsOn_nested hkey hmem (.of_itemPart (mem_numbered.1 hpart))

theorem stepsOn_declared {name : String} {sub : Json} {place : List String} {part : Part inst}
    (h : declaredProperty? keywords name = some sub) :
    (Application.inside ["properties", name] sub place part :
      Application (.object keywords) inst).StepsOn := by
  obtain ⟨properties, hproperties, hget⟩ := declaredProperty?_eq_some.1 h
  exact stepsOn_nested (by decide) (Fields.mem_of_get? hproperties)
    (.of_get? (hget : (Json.object properties).get? name = some sub))

theorem stepsOn_matched {name : String} {entry : String × Json} {place : List String} {part : Part inst}
    (h : entry ∈ matchingPatterns keywords name) :
    (Application.inside ["patternProperties", entry.1] entry.2 place part :
      Application (.object keywords) inst).StepsOn := by
  unfold matchingPatterns at h
  split at h
  · rename_i patterns hpatterns
    have hentry := (List.mem_filter.1 h).1
    exact stepsOn_nested (by decide) (Fields.mem_of_get? hpatterns) (.member hentry (.here entry.2))
  · cases h

theorem stepsOn_property {name : String} {part : Part inst} {a : Application (.object keywords) inst}
    (ha : a ∈ propertyApplications keywords name part) : a.StepsOn := by
  rcases List.mem_append.1 ha with hdeclared | hmatched
  · obtain ⟨sub, hsub, rfl⟩ := List.mem_map.1 hdeclared
    exact stepsOn_declared (Option.mem_toList.1 hsub)
  · obtain ⟨entry, hentry, rfl⟩ := List.mem_map.1 hmatched
    exact stepsOn_matched hentry

theorem stepsOn_closed {rest : Option Json} {given : Json}
    (hmem : ("additionalProperties", given) ∈ keywords) {a : Application (.object keywords) inst}
    (ha : a ∈ closedApplications keywords rest) : a.StepsOn := by
  obtain ⟨field, -, hfield⟩ := List.mem_flatMap.1 ha
  simp only at hfield
  split at hfield
  · obtain ⟨sub, -, rfl⟩ := List.mem_map.1 hfield
    exact stepsOn_keyword (by decide +kernel) hmem
  · exact stepsOn_property hfield

theorem stepsOn_declaredApplications {properties : Fields}
    (hmem : ("properties", .object properties) ∈ keywords) {a : Application (.object keywords) inst}
    (ha : a ∈ declaredApplications properties) : a.StepsOn := by
  obtain ⟨property, hproperty, hvalue⟩ := List.mem_flatMap.1 ha
  obtain ⟨part, -, rfl⟩ := List.mem_map.1 hvalue
  exact stepsOn_nested (by decide) hmem (.member hproperty (.here property.2))

theorem stepsOn_patternApplications {patterns : Fields}
    (hmem : ("patternProperties", .object patterns) ∈ keywords)
    {a : Application (.object keywords) inst} (ha : a ∈ patternApplications patterns) : a.StepsOn := by
  obtain ⟨entry, hentry, hvalue⟩ := List.mem_flatMap.1 ha
  obtain ⟨field, -, rfl⟩ := List.mem_map.1 hvalue
  exact stepsOn_nested (by decide) hmem (.member hentry (.here entry.2))

theorem stepsOn_itemApplications {sub given : Json} {start : Nat} (hkey : key ∈ keywordNames)
    (hmem : (key, given) ∈ keywords) {a : Application (.object keywords) inst}
    (ha : a ∈ itemApplications key sub start) : a.StepsOn := by
  obtain ⟨item, -, rfl⟩ := List.mem_map.1 ha
  exact stepsOn_keyword hkey hmem

theorem stepsOn_tupleApplications {schemas : List Json}
    (hmem : ("items", .array schemas) ∈ keywords) {a : Application (.object keywords) inst}
    (ha : a ∈ tupleApplications schemas) : a.StepsOn := by
  obtain ⟨⟨⟨i, part⟩, sub⟩, hpair, rfl⟩ := List.mem_map.1 ha
  have hsub : schemas[i]? = some sub := by
    cases inst with
    | array items => exact (mem_zip_numbered.1 hpair).2
    | _ => cases hpair
  exact stepsOn_nested (by decide) hmem (.of_getElem? hsub)

/-- A demand of a keyword has findings of its own about the keyword alone, and whatever it applies,
evaluation goes on from the schema to it. -/
structure Demand.Keeps (key : String) (demand : Demand (Application (.object keywords) inst)) :
    Prop where
  own : ∀ finding ∈ demand.own, finding.schemaSteps = [key]
  applications : ∀ a ∈ demand.applications, a.StepsOn

theorem keeps_fails (message : String) :
    (Demand.fails (.about key message) : Demand (Application (.object keywords) inst)).Keeps key where
  own finding hfinding := by
    cases List.mem_singleton.1 hfinding
    rfl
  applications a ha := by cases ha

theorem keeps_all {applications : List (Application (.object keywords) inst)}
    (h : ∀ a ∈ applications, a.StepsOn) : (Demand.all applications).Keeps key where
  own finding hfinding := by cases hfinding
  applications := h

theorem keeps_some {applications : List (Application (.object keywords) inst)} {message : String}
    (h : ∀ a ∈ applications, a.StepsOn) :
    (Demand.some applications (.about key message)).Keeps key where
  own finding hfinding := by
    cases List.mem_singleton.1 hfinding
    rfl
  applications := h

theorem keeps_condition {test : Part (.object keywords)} (hmem : ("if", test.value) ∈ keywords)
    {demand : Demand (Application (.object keywords) inst)}
    (hdemand : demand ∈ conditionDemands test) : demand.Keeps key := by
  have houtcome : ∀ key ∈ ["then", "else"], ∀ a ∈ ((Json.object keywords).part? key).toList.map
      fun part => (Application.here [key] part : Application (.object keywords) inst),
      a.StepsOn := by
    intro key hkey a ha
    obtain ⟨part, hpart, rfl⟩ := List.mem_map.1 ha
    have hget := Json.part?_eq_some.1 (Option.mem_toList.1 hpart)
    have hnames : ["then", "else"] ⊆ keywordNames := by decide +kernel
    exact stepsOn_keyword (hnames hkey) (Fields.mem_of_get? hget)
  unfold conditionDemands at hdemand
  simp only at hdemand
  split at hdemand
  · cases hdemand
  · cases List.mem_singleton.1 hdemand
    refine ⟨fun finding hfinding => (by cases hfinding), fun a ha => ?_⟩
    rcases List.mem_cons.1 ha with rfl | houtcomes
    · exact stepsOn_keyword (by decide +kernel) hmem
    · rcases List.mem_append.1 houtcomes with hyes | hno
      · exact houtcome "then" (by decide) a hyes
      · exact houtcome "else" (by decide) a hno

theorem keeps_closed {fields : Fields} {given : Json} (hmem : ("additionalProperties", given) ∈ keywords)
    {demand : Demand (Application (.object keywords) inst)}
    (hdemand : demand ∈ closedDemands keywords fields) : demand.Keeps "additionalProperties" := by
  unfold closedDemands at hdemand
  split at hdemand
  · rcases List.mem_cons.1 hdemand with rfl | hextra
    · exact keeps_all fun a => stepsOn_closed hmem
    · split at hextra
      · cases hextra
      · cases List.mem_singleton.1 hextra
        exact keeps_fails _
  · split at hdemand
    · cases hdemand
    · cases List.mem_singleton.1 hdemand
      exact keeps_fails _

theorem keeps_dependency {value : Part (.object keywords)} {fields : Fields}
    (hmem : ("dependencies", value.value) ∈ keywords)
    {demand : Demand (Application (.object keywords) inst)}
    (hdemand : demand ∈ dependencyDemands value fields) : demand.Keeps "dependencies" := by
  obtain ⟨entry, hentry, hasked⟩ := List.mem_flatMap.1 hdemand
  split at hasked
  · split at hasked
    · obtain ⟨name, -, rfl⟩ := List.mem_map.1 hasked
      exact keeps_fails _
    · cases List.mem_singleton.1 hasked
      refine keeps_all fun a ha => ?_
      cases List.mem_singleton.1 ha
      exact stepsOn_nested (by decide) hmem (.of_fieldPart hentry)
  · cases hasked

theorem keeps_additionalItems {given : Json} {items : List Json}
    (hmem : ("additionalItems", given) ∈ keywords)
    {demand : Demand (Application (.object keywords) inst)}
    (hdemand : demand ∈ additionalItemDemands keywords given items) :
    demand.Keeps "additionalItems" := by
  unfold additionalItemDemands at hdemand
  split at hdemand
  · cases List.mem_singleton.1 hdemand
    exact keeps_all fun a => stepsOn_itemApplications (by decide +kernel) hmem
  · simp only at hdemand
    split at hdemand
    · cases hdemand
    · cases List.mem_singleton.1 hdemand
      exact keeps_fails _
  · cases hdemand

/-- Keyword by keyword. -/
theorem keeps_of_mem {value : Part (.object keywords)} (hmem : (key, value.value) ∈ keywords)
    {demand : Demand (Application (.object keywords) inst)}
    (hdemand : demand ∈ applicatorDemands keywords key value) : demand.Keeps key := by
  unfold applicatorDemands at hdemand
  split at hdemand
  · cases List.mem_singleton.1 hdemand
    exact keeps_all fun a => stepsOn_alternatives (by decide) hmem
  · cases List.mem_singleton.1 hdemand
    exact keeps_some fun a => stepsOn_alternatives (by decide) hmem
  · cases List.mem_singleton.1 hdemand
    refine ⟨fun finding hfinding => ?_, fun a => stepsOn_alternatives (by decide) hmem⟩
    rcases List.mem_cons.1 hfinding with rfl | hmore
    · rfl
    · cases List.mem_singleton.1 hmore
      rfl
  · cases List.mem_singleton.1 hdemand
    refine ⟨fun finding hfinding => ?_, fun a ha => ?_⟩
    · cases List.mem_singleton.1 hfinding
      rfl
    · cases List.mem_singleton.1 ha
      exact stepsOn_keyword (by decide +kernel) hmem
  · exact keeps_condition hmem hdemand
  · split at hdemand
    · cases hdemand
    · split at hdemand
      · rename_i properties hvalue
        cases List.mem_singleton.1 hdemand
        exact keeps_all fun a => stepsOn_declaredApplications (hvalue ▸ hmem)
      · cases hdemand
  · split at hdemand
    · cases hdemand
    · split at hdemand
      · rename_i patterns hvalue
        cases List.mem_singleton.1 hdemand
        exact keeps_all fun a => stepsOn_patternApplications (hvalue ▸ hmem)
      · cases hdemand
  · split at hdemand
    · exact keeps_closed hmem hdemand
    · cases List.mem_singleton.1 hdemand
      exact keeps_all fun a => stepsOn_closed hmem
    · cases hdemand
  · split at hdemand
    · split at hdemand
      · cases hdemand
      · cases List.mem_singleton.1 hdemand
        exact keeps_fails _
    · cases List.mem_singleton.1 hdemand
      refine ⟨fun finding hfinding => (by cases hfinding), fun a ha => ?_⟩
      obtain ⟨name, -, rfl⟩ := List.mem_map.1 ha
      exact stepsOn_keyword (by decide +kernel) hmem
    · cases hdemand
  · exact keeps_dependency hmem hdemand
  · split at hdemand
    · rename_i schemas hvalue
      cases List.mem_singleton.1 hdemand
      exact keeps_all fun a => stepsOn_tupleApplications (hvalue ▸ hmem)
    · split at hdemand
      · cases List.mem_singleton.1 hdemand
        exact keeps_all fun a => stepsOn_itemApplications (by decide +kernel) hmem
      · cases hdemand
  · exact keeps_additionalItems hmem hdemand
  · cases List.mem_singleton.1 hdemand
    exact keeps_some fun a => stepsOn_itemApplications (by decide +kernel) hmem
  · cases hdemand

theorem demands_of_not_mem {value : Part (.object keywords)} (h : key ∉ applicatorKeywords) :
    (applicatorDemands keywords key value : List (Demand (Application (.object keywords) inst))) = [] := by
  unfold applicatorDemands
  split <;> first | rfl | exact absurd (by simp [applicatorKeywords]) h

theorem mem_keywordNames_of_demand {value : Part (.object keywords)}
    {demand : Demand (Application (.object keywords) inst)}
    (hdemand : demand ∈ applicatorDemands keywords key value) : key ∈ keywordNames := by
  by_contra hkey
  rw [demands_of_not_mem fun hmem => hkey (applicatorKeywords_subset hmem)] at hdemand
  cases hdemand

end

/-! ## What findings blame -/

namespace Evaluation

variable {root : Json} {known : List String} {spot : Spot} {keywords : Fields} {key : String}
  {value inst : Json} {finding : Finding}

theorem keyword_of_mem_contentFailures {failure : String × String}
    (h : failure ∈ contentFailures keywords key value inst) :
    (failure.1 = key ∨ failure.1 = "contentEncoding" ∧ keywords.hasKey "contentEncoding" = true) ∧
      (key = "contentMediaType" ∨ key = "contentEncoding") := by
  unfold contentFailures at h
  split at h
  · split at h
    · rename_i text hkey
      refine ⟨?_, .inl hkey⟩
      split at h
      · unfold jsonContentFailures at h
        split at h
        · split at h
          · cases h
          · cases List.mem_singleton.1 h
            exact .inl hkey.symm
        · rename_i hencoding
          split at h
          · cases List.mem_singleton.1 h
            exact .inr ⟨rfl, Fields.hasKey_iff.2 ⟨_, hencoding⟩⟩
          · split at h
            · cases h
            · cases List.mem_singleton.1 h
              exact .inl hkey.symm
        · cases h
      · cases h
    · split at h
      · rename_i hkey
        rw [Bool.and_eq_true, decide_eq_true_eq] at hkey
        refine ⟨?_, .inr hkey.1⟩
        split at h
        · split at h
          · cases h
          · cases List.mem_singleton.1 h
            exact .inl hkey.1.symm
        · cases h
      · cases h
  · cases h

/-- A finding of an assertion blames a keyword that the schema has. -/
theorem keyword_of_mem_assertions (hmem : (key, value) ∈ keywords)
    (h : finding ∈ assertions keywords key value inst) :
    ∃ keyword ∈ keywordNames, finding.schemaSteps = [keyword] ∧
      ∃ part, (Json.object keywords).Leads [keyword] part := by
  rcases List.mem_append.1 h with hassertion | hcontent
  · obtain ⟨message, hmessage, rfl⟩ := List.mem_map.1 hassertion
    refine ⟨key, ?_, rfl, value, .member hmem (.here value)⟩
    by_contra hkey
    rw [Assertion.failures_of_not_mem fun hassert => hkey (assertionKeywords_subset hassert)] at hmessage
    cases hmessage
  · obtain ⟨failure, hfailure, rfl⟩ := List.mem_map.1 hcontent
    obtain ⟨hkeyword, hkey⟩ := keyword_of_mem_contentFailures hfailure
    have hnames : ["contentMediaType", "contentEncoding"] ⊆ keywordNames := by decide +kernel
    rcases hkeyword with hsame | ⟨hencoding, hpresent⟩
    · refine ⟨key, hnames (by simpa using hkey), ?_, value, .member hmem (.here value)⟩
      rw [← hsame]
      rfl
    · obtain ⟨given, hgiven⟩ := Fields.hasKey_iff.1 hpresent
      refine ⟨"contentEncoding", hnames (by simp), ?_, given, .of_get? hgiven⟩
      rw [← hencoding]
      rfl

/-- The findings of an application at a spot. -/
def applicationFindings (root : Json) (known : List String) (spot : Spot) {schema : Json}
    (a : Application schema spot.value) : List Finding :=
  let next := spot.apply known a
  (findingsWith root known next.pool next.schema next.value).map (Finding.under a.steps a.place)

theorem applicationFindings_eq_nil_iff {schema : Json} {a : Application schema spot.value} :
    applicationFindings root known spot a = [] ↔ spot.Succeeds root known a := by
  rw [applicationFindings, List.map_eq_nil_iff]
  cases a <;> exact Iff.rfl

theorem findingsWith_keywords {pool : List String} (path : List String)
    (href : ∀ reference, Fields.get? "$ref" keywords ≠ some (.string reference)) :
    findingsWith root known pool (.object keywords) inst =
      (Json.fieldParts (.object keywords)).flatMap fun entry =>
        assertions keywords entry.1 entry.2.value inst ++
          (applicatorDemands keywords entry.1 entry.2).flatMap (Demand.findings
            (applicationFindings root known ⟨pool, path, .object keywords, inst⟩)) := by
  rw [findingsWith]
  split
  · rename_i reference hreference
    exact absurd hreference (href reference)
  · extract_lets run
    have hrun : run = applicationFindings root known ⟨pool, path, .object keywords, inst⟩ := by
      funext a
      cases a <;> rfl
    rw [hrun]

/-- A finding is about the schema itself, which allows nothing or has the keyword that failed, or comes
from a schema to which evaluation goes on. -/
theorem exists_of_mem_findingsWith
    (h : finding ∈ findingsWith root known spot.pool spot.schema spot.value) :
    (spot.schema = .bool false ∧ finding.schemaSteps = []) ∨
      (∃ keyword ∈ keywordNames, finding.schemaSteps = [keyword] ∧
        ∃ part, spot.schema.Leads [keyword] part) ∨
      ∃ next steps, EvaluationStep root known spot next ∧ StepsOn spot.schema next.schema steps ∧
        ∃ given ∈ findingsWith root known next.pool next.schema next.value,
          finding.schemaSteps = steps ++ given.schemaSteps := by
  obtain ⟨pool, path, schema, inst⟩ := spot
  cases schema with
  | bool flag =>
    cases flag with
    | true => simp [findingsWith] at h
    | false =>
      rw [findingsWith] at h
      cases List.mem_singleton.1 h
      exact .inl ⟨rfl, rfl⟩
  | object keywords =>
    cases href : (Json.object keywords).reference? with
    | some reference =>
      have hget := get?_of_reference? href
      rw [findingsWith, hget] at h
      simp only at h
      split at h
      · rename_i hpool
        split at h
        · rename_i target htarget
          obtain ⟨given, hgiven, rfl⟩ := List.mem_map.1 h
          exact .inr (.inr ⟨_, ["$ref"], .reference href hpool htarget,
            .keyword (by decide +kernel) (.of_get? hget), given, hgiven, rfl⟩)
        · cases h
      · cases h
    | none =>
      rw [findingsWith_keywords path (reference?_object.1 href)] at h
      obtain ⟨⟨key, value⟩, hentry, hfinding⟩ := List.mem_flatMap.1 h
      have hmem := mem_fieldParts_object.1 hentry
      rcases List.mem_append.1 hfinding with hassertion | hdemands
      · exact .inr (.inl (keyword_of_mem_assertions hmem hassertion))
      · obtain ⟨demand, hdemand, hfound⟩ := List.mem_flatMap.1 hdemands
        have hkeeps := keeps_of_mem hmem hdemand
        rcases Demand.mem_findings hfound with hown | ⟨a, ha, given, hgiven, hsteps⟩
        · exact .inr (.inl ⟨key, mem_keywordNames_of_demand hdemand, hkeeps.own finding hown, value.value,
            .member hmem (.here _)⟩)
        · obtain ⟨inner, hinner, rfl⟩ := List.mem_map.1 hgiven
          refine .inr (.inr ⟨_, a.steps, .application rfl href hentry hdemand ?_,
            ?_, inner, hinner, hsteps⟩)
          · exact ha.congr fun a => applicationFindings_eq_nil_iff
          · have hon := hkeeps.applications a ha.mem
            cases a <;> exact hon
  | _ => simp [findingsWith] at h

end Evaluation

/-! ## All that may be blamed -/

/-- What may be blamed when an instance fails a root schema: a keyword of a schema that is applied, or a
name under which a keyword of such a schema has the schema that allows nothing. Steps that write a place
in a list are no such names. -/
inductive Blamed (root inst : Json) : String → Prop where
  | keyword {spot : Spot} {keyword : String} {part : Json} (happlied : Applied root inst spot)
    (hkeyword : keyword ∈ keywordNames) (hpart : spot.schema.Leads [keyword] part) :
    Blamed root inst keyword
  | name {spot : Spot} {keyword name : String} (happlied : Applied root inst spot)
    (hkeyword : keyword ∈ nestingKeywords) (hname : keywordOf? [name] = some name)
    (hrefused : spot.schema.Leads [keyword, name] (.bool false)) : Blamed root inst name

section

variable {root inst schema sub : Json} {steps : List String}

/-- Steps that end at a schema that allows nothing. -/
theorem StepsOn.blamed {spot : Spot} (h : StepsOn spot.schema (.bool false) steps)
    (happlied : Applied root inst spot) :
    ∃ blamed, keywordOf? steps = some blamed ∧ Blamed root inst blamed := by
  cases h with
  | keyword hkeyword hpart => exact ⟨_, keywordOf?_keyword _ hkeyword, .keyword happlied hkeyword hpart⟩
  | @nested keyword name hkeyword hsub =>
    have hname := nestingKeywords_subset hkeyword
    have hsteps : keywordOf? [keyword, name] = (keywordOf? [name]).or (keywordOf? [keyword]) :=
      keywordOf?_append [keyword] [name]
    rw [keywordOf?_keyword keyword hname] at hsteps
    cases hlast : keywordOf? [name] with
    | none =>
      rw [hlast] at hsteps
      obtain ⟨part, hpart⟩ := hsub.first
      exact ⟨keyword, hsteps, .keyword happlied hname hpart⟩
    | some found =>
      cases keywordOf?_single hlast
      rw [hlast] at hsteps
      exact ⟨name, hsteps, .name happlied hkeyword hlast hsub⟩

/-- Whatever is found when a schema is applied, it blames what may be blamed; a root schema that allows
nothing is the only one to blame nothing. -/
theorem blamed_of_mem_findings {finding : Finding} (h : finding ∈ Evaluation.findings root root inst) :
    (root = .bool false ∧ finding.schemaSteps = []) ∨
      ∃ blamed, keywordOf? finding.schemaSteps = some blamed ∧ Blamed root inst blamed := by
  -- Each step of evaluation shortens the steps to the keyword.
  have hspot : ∀ (n : Nat) (spot : Spot) (finding : Finding), finding.schemaSteps.length = n →
      Applied root inst spot →
      finding ∈ Evaluation.findingsWith root root.references spot.pool spot.schema spot.value →
      (spot.schema = .bool false ∧ finding.schemaSteps = []) ∨
        ∃ blamed, keywordOf? finding.schemaSteps = some blamed ∧ Blamed root inst blamed := by
    intro n
    induction n using Nat.strong_induction_on with
    | _ n ih =>
      intro spot finding hlength happlied hfinding
      rcases Evaluation.exists_of_mem_findingsWith hfinding with hnothing |
        ⟨keyword, hkeyword, hsteps, part, hpart⟩ | ⟨next, steps, hstep, hon, given, hgiven, hsteps⟩
      · exact .inl hnothing
      · rw [hsteps]
        exact .inr ⟨keyword, keywordOf?_keyword keyword hkeyword, .keyword happlied hkeyword hpart⟩
      · right
        have hshorter : given.schemaSteps.length < n := by
          rw [← hlength, hsteps, List.length_append]
          have hpos : 0 < steps.length := by cases hon <;> simp
          omega
        rcases ih _ hshorter next given rfl (happlied.tail hstep) hgiven with
          ⟨hfalse, hend⟩ | ⟨blamed, hblamed, hmay⟩
        · rw [hsteps, hend, List.append_nil]
          exact (hfalse ▸ hon).blamed happlied
        · refine ⟨blamed, ?_, hmay⟩
          rw [hsteps, keywordOf?_append, hblamed]
          rfl
  exact hspot _ ⟨root.references, [], root, inst⟩ finding rfl .refl h

end

end ApiContract
