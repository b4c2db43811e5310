import ApiContract.Proofs.Preparation.Separable

/-! # Merged schemas are laxer

What two separable schemas both accept, the schema merged of them accepts.

* `mergeable_composed`, `accepts_composed`: two schemas that cannot be merged.
* `separate_mergeFields`, `laxPart_mergeFields`: merged schemas are separable.
* `fulfils_mergeFields`: keyword by keyword, what both ask is enough.
* `meets_mergeSchemas`: schemas of one property. -/

set_option autoImplicit false

namespace ApiContract

/-! ## Compositions -/

section

variable {document a b inst : Json} {fragments : List Json}

theorem get?_composition (key : String) : Fields.get? key [("allOf", .array fragments)] =
    if "allOf" = key then some (.array fragments) else none := by
  rw [Fields.get?_cons, Fields.get?_nil]

theorem get?_composition_of_ne {key : String} (h : "allOf" ≠ key) :
    Fields.get? key [("allOf", .array fragments)] = none := by
  rw [get?_composition, if_neg h]

theorem isSeparable_composition (h : ∀ fragment ∈ fragments, IsSeparable document fragment) :
    IsSeparable document (.object [("allOf", .array fragments)]) := by
  refine isSeparable_of_keys (List.forall_mem_singleton.2 (.inr (.inr ⟨rfl, fun sub hsub => ?_⟩)))
  exact h sub hsub

theorem mergeable_composed (ha : Mergeable document a) (hb : Mergeable document b) :
    Mergeable document (composed a b) where
  ordered := inherited_ordered.composed ha.ordered hb.ordered
  references := (inherited_refersOnly _).composed ha.references hb.references
  separable := isSeparable_composition
    (List.forall_mem_cons.2 ⟨ha.separable, List.forall_mem_singleton.2 hb.separable⟩)

theorem accepts_composed (ha : Mergeable document a) (hb : Mergeable document b)
    (hinst : inst.ordered = true) (haccepts : Evaluation.Accepts document a inst)
    (hother : Evaluation.Accepts document b inst) :
    Evaluation.Accepts document (composed a b) inst := by
  refine (accepts_iff_fulfils (mergeable_composed ha hb) hinst rfl).2 ?_
  refine (fulfils_of_inPlace (by simp [inPlaceKeywords])).2 ⟨fun value hvalue => ?_, ?_⟩
  · rw [get?_composition, if_pos rfl] at hvalue
    cases hvalue
    exact List.forall_mem_cons.2 ⟨haccepts, List.forall_mem_singleton.2 hother⟩
  · refine ⟨fun value hvalue => ?_, fun value hvalue => ?_, fun value hvalue => ?_,
      fun value hvalue => ?_⟩
    all_goals
      rw [get?_composition_of_ne (by decide)] at hvalue
      cases hvalue

end

/-! ## Keywords -/

section

variable {document : Json} {target fragment merged : Fields}

theorem Origin.own_or_added {key : String} {value : Json} (h : Origin target fragment key value)
    (hrequired : key ≠ "required") (hproperties : key ≠ "properties") :
    target.get? key = some value ∨ fragment.get? key = some value := by
  cases h with
  | own h => exact .inl h
  | added h => exact .inr h
  | required hkey => exact absurd hkey hrequired
  | properties hkey => exact absurd hkey hproperties

/-- What holds of a keyword of both schemas holds of the merged keyword, unless it is joined. -/
theorem forall_mergeFields (hfragment : fragment.Ordered)
    (h : mergeFields target fragment = some merged) {key : String} {q : Json → Prop}
    (hrequired : key ≠ "required") (hproperties : key ≠ "properties")
    (htarget : ∀ value, target.get? key = some value → q value)
    (hother : ∀ value, fragment.get? key = some value → q value) :
    ∀ value, merged.get? key = some value → q value := by
  intro value hvalue
  rcases (origin_of_mergeFields hfragment h hvalue).own_or_added hrequired hproperties with hown | hadded
  · exact htarget value hown
  · exact hother value hadded

theorem separate_mergeFields (hfragment : fragment.Ordered) (htarget : HasSeparateKeywords document target)
    (hother : HasSeparateKeywords document fragment) (h : mergeFields target fragment = some merged) :
    HasSeparateKeywords document merged where
  unpaired key hkey := by
    have hjoined : ∀ key ∈ pairedKeywords, key ≠ "required" ∧ key ≠ "properties" := by decide
    refine Option.eq_none_iff_forall_ne_some.2 (forall_mergeFields hfragment h (hjoined key hkey).1
      (hjoined key hkey).2 (fun value hvalue => ?_) fun value hvalue => ?_)
    · rw [htarget.unpaired key hkey] at hvalue
      cases hvalue
    · rw [hother.unpaired key hkey] at hvalue
      cases hvalue
  reference := forall_mergeFields hfragment h (by decide) (by decide) htarget.reference hother.reference
  exact key hkey hdata value hvalue := by
    cases origin_of_mergeFields hfragment h hvalue with
    | own hown => exact htarget.exact key hkey hdata value hown
    | added hadded => exact hother.exact key hkey hdata value hadded
    | required hrequired hnames hmore hjoined =>
      rename_i names more
      subst hrequired hjoined
      refine .array fun name hname => ?_
      rcases mem_mergeRequired hname with hold | hnew
      · cases hheld : target.get? "required" with
        | none =>
          rw [hheld, Option.getD_none, Json.array.injEq] at hnames
          rw [← hnames] at hold
          cases hold
        | some held =>
          rw [hheld, Option.getD_some] at hnames
          have huncomposed := htarget.exact "required" hkey hdata _ hheld
          rw [hnames] at huncomposed
          exact uncomposed_array.1 huncomposed name hold
      · exact uncomposed_array.1 (hother.exact "required" hkey hdata _ hmore) name hnew
    | properties hproperties =>
      subst hproperties
      exact absurd hkey (by decide)
  entries entries hentries := by
    rcases (origin_of_mergeFields hfragment h hentries).own_or_added (by decide) (by decide) with
      hown | hadded
    · exact htarget.entries entries hown
    · exact hother.entries entries hadded
  strict sub hsub := by
    cases hsub with
    | not hvalue =>
      exact ((origin_of_mergeFields hfragment h hvalue).own_or_added (by decide) (by decide)).elim
        (fun hown => htarget.strict sub (.not hown)) fun hadded => hother.strict sub (.not hadded)
    | one hvalue hmem =>
      exact ((origin_of_mergeFields hfragment h hvalue).own_or_added (by decide) (by decide)).elim
        (fun hown => htarget.strict sub (.one hown hmem))
        fun hadded => hother.strict sub (.one hadded hmem)

theorem laxPart_mergeFields (hfragment : (Json.object fragment).ordered = true)
    (h : mergeFields target fragment = some merged) {sub : Json} (hsub : LaxPart merged sub) :
    LaxPart target sub ∨ LaxPart fragment sub ∨
      ∃ a b, LaxPart target a ∧ LaxPart fragment b ∧ sub = mergeSchemas a b := by
  have hkeys := (Json.ordered_object.1 hfragment).1
  have hfrom : ∀ {key value}, key ≠ "required" → key ≠ "properties" → merged.get? key = some value →
      target.get? key = some value ∨ fragment.get? key = some value :=
    fun hrequired hproperties hvalue =>
      (origin_of_mergeFields hkeys h hvalue).own_or_added hrequired hproperties
  cases hsub with
  | single hkey hvalue =>
    have hne : ∀ key ∈ ["additionalProperties", "propertyNames", "contains"],
        key ≠ "required" ∧ key ≠ "properties" := by decide
    exact (hfrom (hne _ hkey).1 (hne _ hkey).2 hvalue).imp (.single hkey) fun hadded =>
      .inl (.single hkey hadded)
  | item hvalue hitem =>
    exact (hfrom (by decide) (by decide) hvalue).imp (.item · hitem) fun hadded =>
      .inl (.item hadded hitem)
  | listed hkey hvalue hmem =>
    have hne : ∀ key ∈ ["allOf", "anyOf", "items"], key ≠ "required" ∧ key ≠ "properties" := by decide
    exact (hfrom (hne _ hkey).1 (hne _ hkey).2 hvalue).imp (.listed hkey · hmem) fun hadded =>
      .inl (.listed hkey hadded hmem)
  | property hdeclared =>
    rename_i name
    rw [declaredProperty?_mergeFields hfragment h] at hdeclared
    cases hown : declaredProperty? target name with
    | none =>
      rw [hown] at hdeclared
      exact .inr (.inl (.property hdeclared))
    | some a =>
      cases hadded : declaredProperty? fragment name with
      | none =>
        rw [hown, hadded] at hdeclared
        cases hdeclared
        exact .inl (.property hown)
      | some b =>
        rw [hown, hadded] at hdeclared
        cases hdeclared
        exact .inr (.inr ⟨a, b, .property hown, .property hadded, rfl⟩)
  | dependency hvalue hentry hdependency =>
    exact (hfrom (by decide) (by decide) hvalue).imp (.dependency · hentry hdependency) fun hadded =>
      .inl (.dependency hadded hentry hdependency)

/-- The schema of a property of merged schemas is made of those that the two give it. -/
theorem propertySchemaOf?_mergeFields (hfragment : (Json.object fragment).ordered = true)
    (h : mergeFields target fragment = some merged) {name : String} {sub : Json}
    (hsub : propertySchemaOf? merged name = some sub) :
    propertySchemaOf? target name = some sub ∨ propertySchemaOf? fragment name = some sub ∨
      ∃ a b, declaredProperty? target name = some a ∧ declaredProperty? fragment name = some b ∧
        sub = mergeSchemas a b := by
  have hkeys := (Json.ordered_object.1 hfragment).1
  unfold propertySchemaOf? at hsub ⊢
  rw [declaredProperty?_mergeFields hfragment h] at hsub
  cases hown : declaredProperty? target name with
  | none =>
    cases hadded : declaredProperty? fragment name with
    | none =>
      rw [hown, hadded, bothMerged?_none, Option.none_or, Option.filter_eq_some_iff] at hsub
      rw [Option.none_or, Option.none_or]
      simp only [Option.filter_eq_some_iff]
      exact ((origin_of_mergeFields hkeys h hsub.1).own_or_added (by decide) (by decide)).imp
        (fun hvalue => ⟨hvalue, hsub.2⟩) fun hvalue => .inl ⟨hvalue, hsub.2⟩
    | some b =>
      rw [hown, hadded] at hsub
      exact .inr (.inl hsub)
  | some a =>
    cases hadded : declaredProperty? fragment name with
    | none =>
      rw [hown, hadded] at hsub
      exact .inl hsub
    | some b =>
      rw [hown, hadded] at hsub
      cases hsub
      exact .inr (.inr ⟨a, b, rfl, rfl, rfl⟩)

theorem itemSchema?_mergeFields (hfragment : fragment.Ordered) (htarget : HasSeparateKeywords document target)
    (hother : HasSeparateKeywords document fragment) (hmerged : HasSeparateKeywords document merged)
    (h : mergeFields target fragment = some merged) {place : Nat} {sub : Json}
    (hsub : itemSchema? merged place = some sub) :
    itemSchema? target place = some sub ∨ itemSchema? fragment place = some sub := by
  rw [htarget.itemSchema?_eq_some, hother.itemSchema?_eq_some]
  rcases hmerged.itemSchema?_eq_some.1 hsub with ⟨tuple, htuple, hplace⟩ | ⟨hvalue, hitem⟩
  · exact ((origin_of_mergeFields hfragment h htuple).own_or_added (by decide) (by decide)).imp
      (fun hown => .inl ⟨tuple, hown, hplace⟩) fun hadded => .inl ⟨tuple, hadded, hplace⟩
  · exact ((origin_of_mergeFields hfragment h hvalue).own_or_added (by decide) (by decide)).imp
      (fun hown => .inr ⟨hown, hitem⟩) fun hadded => .inr ⟨hadded, hitem⟩

theorem holds_required_nil {inst : Json} : Assertion.Holds "required" (.array []) inst := by
  cases inst with
  | object fields => exact fun name hname => by cases hname
  | _ => trivial

theorem holds_mergeRequired {names more : List Json} {inst : Json}
    (hnames : Assertion.Holds "required" (.array names) inst)
    (hmore : Assertion.Holds "required" (.array more) inst) :
    Assertion.Holds "required" (.array (mergeRequired names more)) inst := by
  cases inst with
  | object fields =>
    intro name hname
    rcases mem_mergeRequired hname with hold | hnew
    · exact hnames name hold
    · exact hmore name hnew
  | _ => trivial

theorem asserts_mergeFields {inst : Json} (hfragment : fragment.Ordered)
    (htarget : HasSeparateKeywords document target) (hother : HasSeparateKeywords document fragment)
    (h : mergeFields target fragment = some merged)
    (hown : ∀ key value, target.get? key = some value →
      Assertion.Holds key value inst ∧ contentFailures target key value inst = [])
    (hadded : ∀ key value, fragment.get? key = some value →
      Assertion.Holds key value inst ∧ contentFailures fragment key value inst = [])
    (key : String) (value : Json) (hvalue : merged.get? key = some value) :
    Assertion.Holds key value inst ∧ contentFailures merged key value inst = [] := by
  have hmerged := separate_mergeFields hfragment htarget hother h
  cases origin_of_mergeFields hfragment h hvalue with
  | own hget =>
    rw [htarget.contentFailures_eq hmerged hget]
    exact hown key value hget
  | added hget =>
    rw [hother.contentFailures_eq hmerged hget]
    exact hadded key value hget
  | required hrequired hnames hmore hjoined =>
    subst hrequired hjoined
    refine ⟨holds_mergeRequired ?_ (hadded _ _ hmore).1,
      contentFailures_of_ne _ _ (by decide) (by decide)⟩
    cases hheld : target.get? "required" with
    | none =>
      rw [hheld, Option.getD_none, Json.array.injEq] at hnames
      rw [← hnames]
      exact holds_required_nil
    | some held =>
      rw [hheld, Option.getD_some] at hnames
      exact hnames ▸ (hown _ _ hheld).1
  | properties hproperties =>
    subst hproperties
    exact ⟨Assertion.holds_of_not_mem (by decide), contentFailures_of_ne _ _ (by decide) (by decide)⟩

theorem membersPass_mergeFields {inside : Json → Json → Prop} {fields : Fields}
    (hfragment : (Json.object fragment).ordered = true) (htarget : HasSeparateKeywords document target)
    (hother : HasSeparateKeywords document fragment) (h : mergeFields target fragment = some merged)
    (hboth : ∀ name a b, declaredProperty? target name = some a → declaredProperty? fragment name = some b →
      ∀ value, (name, value) ∈ fields → inside a value → inside b value → inside (mergeSchemas a b) value)
    (hown : MembersPass inside target fields) (hadded : MembersPass inside fragment fields) :
    MembersPass inside merged fields := by
  have hmerged := separate_mergeFields (Json.ordered_object.1 hfragment).1 htarget hother h
  have hfirst := (membersPass_of_noPatterns (htarget.unpaired _ (by decide))).1 hown
  have hsecond := (membersPass_of_noPatterns (hother.unpaired _ (by decide))).1 hadded
  refine (membersPass_of_noPatterns (hmerged.unpaired _ (by decide))).2 fun name value hmem sub hsub => ?_
  rcases propertySchemaOf?_mergeFields hfragment h hsub with htake | htake | ⟨a, b, ha, hb, rfl⟩
  · exact hfirst name value hmem sub htake
  · exact hsecond name value hmem sub htake
  · refine hboth name a b ha hb value hmem (hfirst name value hmem a ?_) (hsecond name value hmem b ?_)
    · rw [propertySchemaOf?, ha, Option.some_or]
    · rw [propertySchemaOf?, hb, Option.some_or]

/-- What both schemas ask is all that the merged one asks. -/
theorem fulfils_mergeFields {here : Json → Prop} {inside : Json → Json → Prop} {inst : Json}
    (hfragment : (Json.object fragment).ordered = true) (htarget : HasSeparateKeywords document target)
    (hother : HasSeparateKeywords document fragment) (h : mergeFields target fragment = some merged)
    (hboth : ∀ name a b, declaredProperty? target name = some a →
      declaredProperty? fragment name = some b → ∀ fields value, inst = .object fields →
        (name, value) ∈ fields → inside a value → inside b value → inside (mergeSchemas a b) value)
    (hown : Fulfils here inside target inst) (hadded : Fulfils here inside fragment inst) :
    Fulfils here inside merged inst := by
  have hkeys := (Json.ordered_object.1 hfragment).1
  have hmerged := separate_mergeFields hkeys htarget hother h
  exact
    { asserts := asserts_mergeFields hkeys htarget hother h hown.asserts hadded.asserts
      all := forall_mergeFields hkeys h (by decide) (by decide) hown.all hadded.all
      any := forall_mergeFields hkeys h (by decide) (by decide) hown.any hadded.any
      one := forall_mergeFields hkeys h (by decide) (by decide) hown.one hadded.one
      not := forall_mergeFields hkeys h (by decide) (by decide) hown.not hadded.not
      condition := by
        refine fun test _ => ⟨fun sub hsub => ?yes, fun sub hsub => ?no⟩
        case yes =>
          rw [hmerged.unpaired "then" (by decide)] at hsub
          cases hsub
        case no =>
          rw [hmerged.unpaired "else" (by decide)] at hsub
          cases hsub
      members := fun fields hinst =>
        membersPass_mergeFields hfragment htarget hother h
          (fun name a b ha hb value => hboth name a b ha hb fields value hinst)
          (hown.members fields hinst) (hadded.members fields hinst)
      names := fun fields hinst => forall_mergeFields hkeys h (by decide) (by decide)
        (hown.names fields hinst) (hadded.names fields hinst)
      dependencies := by
        intro fields hinst entries hentries
        rcases (origin_of_mergeFields hkeys h hentries).own_or_added (by decide) (by decide) with
          htake | htake
        · exact hown.dependencies fields hinst entries htake
        · exact hadded.dependencies fields hinst entries htake
      items := by
        intro items hinst i item hitem sub hsub
        rcases itemSchema?_mergeFields hkeys htarget hother hmerged h hsub with htake | htake
        · exact hown.items items hinst i item hitem sub htake
        · exact hadded.items items hinst i item hitem sub htake
      contains := fun items hinst => forall_mergeFields hkeys h (by decide) (by decide)
        (hown.contains items hinst) (hadded.contains items hinst) }

end

/-! ## Schemas -/

/-- A mergeable schema that accepts whatever two schemas both accept. -/
structure Meets (document a b result : Json) : Prop where
  mergeable : Mergeable document result
  accepts : ∀ inst, inst.ordered = true → Evaluation.Accepts document a inst →
    Evaluation.Accepts document b inst → Evaluation.Accepts document result inst

section

variable {document : Json} {target fragment merged : Fields}

theorem meets_composed {a b : Json} (ha : Mergeable document a) (hb : Mergeable document b) :
    Meets document a b (composed a b) :=
  ⟨mergeable_composed ha hb, fun _ => accepts_composed ha hb⟩

theorem mergeable_mergeFields
    (htarget : Mergeable document (.object target)) (hfragment : Mergeable document (.object fragment))
    (hboth : ∀ a b, LaxPart target a → LaxPart fragment b → IsSeparable document (mergeSchemas a b))
    (h : mergeFields target fragment = some merged) : Mergeable document (.object merged) where
  ordered := inherited_ordered.merges.1 _ _ htarget.ordered hfragment.ordered _ h
  references := (inherited_refersOnly _).merges.1 _ _ htarget.references hfragment.references _ h
  separable := by
    have hkeys := (Json.ordered_object.1 hfragment.ordered).1
    refine .object (separate_mergeFields hkeys htarget.separate hfragment.separate h) fun sub hsub => ?_
    rcases laxPart_mergeFields hfragment.ordered h hsub with hpart | hpart | ⟨a, b, ha, hb, rfl⟩
    · exact (htarget.part hpart).separable
    · exact (hfragment.part hpart).separable
    · exact hboth a b ha hb

theorem get?_reference_mergeFields (hfragment : fragment.Ordered)
    (hnone : fragment.get? "$ref" = none) (h : mergeFields target fragment = some merged) :
    merged.get? "$ref" = target.get? "$ref" := by
  cases hvalue : target.get? "$ref" with
  | some value => exact get?_mergeFields_of_get? (by decide) (by decide) h hvalue
  | none =>
    refine Option.eq_none_iff_forall_ne_some.2
      (forall_mergeFields hfragment h (by decide) (by decide) (fun value hown => ?_) fun value hadded => ?_)
    · rw [hvalue] at hown
      cases hown
    · rw [hnone] at hadded
      cases hadded

theorem reference?_mergeFields (hfragment : Mergeable document (.object fragment))
    (hnone : (Json.object fragment).reference? = none)
    (h : mergeFields target fragment = some merged) :
    (Json.object merged).reference? = (Json.object target).reference? := by
  have hget := get?_reference_mergeFields (Json.ordered_object.1 hfragment.ordered).1
    (hfragment.separate.reference?_eq_none hnone) h
  rw [Json.reference?, Json.reference?, Json.getString?, Json.getString?, Json.get?, Json.get?, hget]

theorem accepts_mergeFields (hdocument : Followable document)
    (htarget : Mergeable document (.object target)) (hfragment : Mergeable document (.object fragment))
    (hmerged : Mergeable document (.object merged))
    (hnone : (Json.object fragment).reference? = none)
    (hboth : ∀ a b, LaxPart target a → LaxPart fragment b → Meets document a b (mergeSchemas a b))
    (h : mergeFields target fragment = some merged) {inst : Json} (hinst : inst.ordered = true)
    (hown : Evaluation.Accepts document (.object target) inst)
    (hadded : (Json.object target).reference? = none →
      Evaluation.Accepts document (.object fragment) inst) :
    Evaluation.Accepts document (.object merged) inst := by
  have hsame := reference?_mergeFields hfragment hnone h
  cases href : (Json.object target).reference? with
  | some reference =>
    exact (accepts_of_same_reference hdocument hinst htarget hmerged href hsame).1 hown
  | none =>
    refine (accepts_iff_fulfils hmerged hinst (hsame.trans href)).2 ?_
    refine fulfils_mergeFields hfragment.ordered htarget.separate hfragment.separate h
      (fun name a b ha hb fields value hfields hmem => ?_)
      ((accepts_iff_fulfils htarget hinst href).1 hown)
      ((accepts_iff_fulfils hfragment hinst hnone).1 (hadded href))
    exact (hboth a b (.property ha) (.property hb)).accepts value
      (IsInside.member hinst hfields hmem).ordered

/-- Two schemas of one property, merged, accept what both accept. -/
theorem meets_mergeSchemas (hdocument : Followable document)
    (a b : Json) (ha : Mergeable document a) (hb : Mergeable document b) :
    Meets document a b (mergeSchemas a b) := by
  have hsmaller : ∀ {fragment sub}, b = .object fragment → LaxPart fragment sub →
      sizeOf sub < sizeOf b := by
    rintro fragment sub rfl hsub
    exact hsub.beneath.sizeOf_lt
  unfold mergeSchemas
  split
  · rename_i left right
    split
    · exact meets_composed ha hb
    · rename_i hreferences
      have hnone : ∀ {keywords : Fields}, keywords.hasKey "$ref" = false →
          (Json.object keywords).reference? = none := by
        intro keywords hkey
        rw [Json.reference?, Json.getString?, Json.get?, Fields.hasKey_eq_false_iff.1 hkey]
        rfl
      rw [Bool.not_eq_true, Bool.or_eq_false_iff] at hreferences
      split
      · rename_i merged hmerged
        have hboth : ∀ a b, LaxPart left a → LaxPart right b → Meets document a b (mergeSchemas a b) := by
          intro a b hleft hright
          have hsize := hsmaller rfl hright
          exact meets_mergeSchemas hdocument a b (ha.part hleft) (hb.part hright)
        have hmergeable := mergeable_mergeFields ha hb
          (fun a b hleft hright => (hboth a b hleft hright).mergeable.separable) hmerged
        exact ⟨hmergeable, fun inst hinst hown hadded => accepts_mergeFields hdocument ha hb
          hmergeable (hnone hreferences.2) hboth hmerged hinst hown fun _ => hadded⟩
      · exact meets_composed ha hb
  · exact meets_composed ha hb
termination_by sizeOf b
decreasing_by
  subst_eqs
  exact hsize

end

end ApiContract
