import ApiContract.Proofs.Preparation.Reflecting
import ApiContract.Proofs.Preparation.Replacing

/-! # Flattening loses only what is overridden

An instance that satisfies a flattened schema upholds the schema that it comes of: all fragments of its
compositions with references followed, apart from what another one overrides.

* `Hosts`: a document in which the flattened schemas of another one are evaluated.
* `upheldTo_of_accepts`: what a schema accepts in such a document upholds it.
* `upheld_iff_accepts`: to uphold a schema that leads to no fragments is to satisfy it.
* `upheld_of_flattened`: what satisfies a flattened schema upholds the schema. -/

set_option autoImplicit false

namespace ApiContract

/-! ## Documents to evaluate in -/

/-- A document in which references lead to what flattening makes of their targets, and in which schemas
accept no less. -/
structure Hosts (document given : Json) : Prop where
  ordered : given.ordered = true
  unrepeated : Unrepeated given
  known : given.allReferences ⊆ document.allReferences
  target : ∀ reference ∈ document.allReferences, ∀ found, document.resolve? reference = some found →
    ∃ flat, targetOf given reference = .ok flat ∧ Walked document (flattenDepth document) [] found flat
  accepts : ∀ schema inst, Mergeable document schema → inst.ordered = true →
    schema.allReferences ⊆ given.allReferences → Evaluation.Accepts document schema inst →
      Evaluation.Accepts given schema inst
  steady : ∀ schema inst, schema.ordered = true → inst.ordered = true → Steady document schema →
    schema.allReferences ⊆ given.allReferences →
      (Evaluation.Accepts document schema inst ↔ Evaluation.Accepts given schema inst)

section

variable {document given inst : Json} {depth : Nat}

theorem hosts_self (hdocument : Followable document) : Hosts document document where
  ordered := hdocument.ordered
  unrepeated := hdocument.unrepeated
  known := List.Subset.refl _
  target _ hmem found hfound := ⟨found, (hdocument.target_iff hmem).2 hfound, .kept found⟩
  accepts _ _ _ _ _ := id
  steady _ _ _ _ _ _ := Iff.rfl

theorem hosts_flattened (hdocument : Followable document) (hclear : ClearReferences document) :
    Hosts document (flattenCompositions document) where
  ordered := ordered_flattenCompositions hdocument.ordered
  unrepeated := unrepeated_flattenCompositions hdocument hclear
  known := allReferences_flattenCompositions document
  target _ hmem _ hfound := exists_flattened_of_target hdocument hclear hmem
    ((hdocument.target_iff hmem).2 hfound)
  accepts schema inst hschema hinst hknown :=
    accepts_flattenCompositions hdocument hclear document.references schema inst hschema hinst hknown
      (covers_references hschema.known)
  steady _ _ hschema hinst hsteady hknown :=
    accepts_iff_of_steady hdocument hclear hschema hinst hsteady hknown

/-! ## Keywords -/

theorem pairwise_of_exactlyOne {p : Json → Prop} {items : List Json} (h : ExactlyOne p items) :
    items.Pairwise fun a b => p a → ¬ p b := by
  obtain ⟨before, item, after, rfl, -, hothers⟩ := h
  have hnone : ∀ {other}, other ∈ before ∨ other ∈ after → ¬ p other :=
    fun hmem => hothers _ (List.mem_append.2 hmem)
  refine List.pairwise_append.2 ⟨?_, List.pairwise_cons.2 ⟨?_, ?_⟩, ?_⟩
  · exact List.pairwise_of_forall_mem_list fun a ha b hb _ => hnone (.inl hb)
  · exact fun other hother _ => hnone (.inr hother)
  · exact List.pairwise_of_forall_mem_list fun a ha b hb _ => hnone (.inr hb)
  · exact fun a ha b _ hp _ => hnone (.inl ha) hp

/-- A schema that flattening does not make stricter accepts no less in such a document. -/
theorem Hosts.accepts_of_staysLax (hhosts : Hosts document given) {schema : Json}
    (hschema : schema.ordered = true) (hinst : inst.ordered = true)
    (hknown : schema.allReferences ⊆ given.allReferences) (hstays : StaysLax document schema)
    (h : Evaluation.Accepts document schema inst) : Evaluation.Accepts given schema inst := by
  rcases hstays with hmergeable | ⟨-, hsteady⟩
  · exact hhosts.accepts schema inst hmergeable hinst hknown h
  · exact (hhosts.steady schema inst hschema hinst hsteady hknown).1 h

/-- Fulfilled keywords are respected, if what the schemas in them accept upholds them. -/
theorem respects_of_fulfils (hhosts : Hosts document given) (hinst : inst.ordered = true)
    {keywords : Fields} (hordered : (Json.object keywords).ordered = true)
    (hknown : (Json.object keywords).allReferences ⊆ given.allReferences)
    (hup : ∀ sub part, Beneath keywords sub → part.ordered = true →
      Evaluation.Accepts given sub part → UpheldTo document depth [sub] part)
    (h : Fulfils (fun sub => Evaluation.Accepts given sub inst) (Evaluation.Accepts given) keywords inst) :
    Respects document (UpheldTo document depth) keywords inst := by
  have hbelow : ∀ {sub}, Beneath keywords sub → sub.allReferences ⊆ given.allReferences :=
    fun hsub => List.Subset.trans hsub.allReferences_subset hknown
  have hlax : ∀ {sub}, Beneath keywords sub → StaysLax document sub →
      Evaluation.Accepts document sub inst → Evaluation.Accepts given sub inst :=
    fun hsub => hhosts.accepts_of_staysLax (hsub.ordered hordered) hinst (hbelow hsub)
  refine
    { asserts := fun key value hvalue => (h.asserts key value hvalue).1
      any := ?any, one := ?one, not := ?not, yes := ?yes, no := ?no, patterns := ?patterns
      names := ?names, dependencies := ?dependencies, items := ?items, contains := ?contains }
  case any =>
    intro value hvalue
    obtain ⟨sub, hsub, haccepts⟩ := h.any value hvalue
    exact ⟨sub, hsub, hup sub inst (.listed hvalue hsub) hinst haccepts⟩
  case one =>
    intro value hvalue
    have hone := h.one value hvalue
    have hpairwise := pairwise_of_exactlyOne hone
    obtain ⟨before, sub, after, hsplit, haccepts, -⟩ := hone
    have hsub : sub ∈ listed value := hsplit ▸ List.mem_append_right _ (List.mem_cons_self ..)
    refine ⟨⟨sub, hsub, hup sub inst (.listed hvalue hsub) hinst haccepts⟩, ?_⟩
    refine hpairwise.imp_of_mem fun ha hb hboth hstays hother hfirst hsecond => ?_
    exact hboth (hlax (.listed hvalue ha) hstays hfirst) (hlax (.listed hvalue hb) hother hsecond)
  case not => exact fun sub hsub hstays haccepts => h.not sub hsub (hlax (.value hsub) hstays haccepts)
  case yes =>
    intro test htest sub hsub hstays haccepts
    have hyes := (h.condition test htest).1 sub hsub (hlax (.value htest) hstays haccepts)
    exact hup sub inst (.value hsub) hinst hyes
  case no =>
    intro test htest sub hsub _ hsteady hrefuses
    have hsame := hhosts.steady test inst (Beneath.ordered hordered (.value htest)) hinst hsteady
      (hbelow (.value htest))
    exact hup sub inst (.value hsub) hinst ((h.condition test htest).2 sub hsub (mt hsame.2 hrefuses))
  case patterns =>
    intro members hmembers name value hmem entry hmatched
    have hschema : entry.2 ∈ propertySchemas keywords name :=
      List.mem_append_right _ (List.mem_map.2 ⟨entry, hmatched, rfl⟩)
    exact hup entry.2 value (beneath_of_propertySchemas hschema) (IsInside.member hinst hmembers hmem).ordered
      ((h.members members hmembers name value hmem).1 entry.2 hschema)
  case names =>
    intro members hmembers sub hsub hschema name value hmem
    exact hup sub (.string name) (.value hsub) rfl (h.names members hmembers sub hsub hschema name value hmem)
  case dependencies =>
    intro members hmembers entries hentries name dependency hmem hname
    exact (h.dependencies members hmembers entries hentries name dependency hmem hname).imp
      (hup dependency inst (.entry hentries hmem) hinst)
  case items =>
    intro items hitems
    exact (h.items items hitems).imp fun sub hsub item hmem =>
      hup sub item hsub (IsInside.item hinst hitems hmem).ordered
  case contains =>
    intro items hitems sub hsub
    obtain ⟨item, hmem, haccepts⟩ := h.contains items hitems sub hsub
    exact ⟨item, hmem, hup sub item (.value hsub) (IsInside.item hinst hitems hmem).ordered haccepts⟩

theorem upheldTo_nil : UpheldTo document depth [] inst := by
  induction depth generalizing inst with
  | zero => trivial
  | succ depth ih =>
    intro layers hlayers
    cases hlayers
    exact
      { possible := nofun
        keywords := by simp
        joined := nofun
        content := by simp
        properties := fun _ _ _ _ _ _ => ih
        further := by simp }

/-- A layer on its own, of fulfilled keywords. -/
theorem upholds_of_fulfils (hhosts : Hosts document given) (hinst : inst.ordered = true) {layer : Json}
    (hordered : (Json.object (keywordsOf layer)).ordered = true)
    (hknown : (Json.object (keywordsOf layer)).allReferences ⊆ given.allReferences)
    (hpossible : layer ≠ .bool false)
    (hup : ∀ sub part, Beneath (keywordsOf layer) sub → part.ordered = true →
      Evaluation.Accepts given sub part → UpheldTo document depth [sub] part)
    (h : Fulfils (fun sub => Evaluation.Accepts given sub inst) (Evaluation.Accepts given)
      (keywordsOf layer) inst) :
    Upholds document (UpheldTo document depth) [layer] inst where
  possible hmem := hpossible (List.mem_singleton.1 hmem).symm
  keywords before other after hsplit := by
    obtain ⟨rfl, rfl, rfl⟩ := split_singleton hsplit
    refine (respects_of_fulfils hhosts hinst hordered hknown hup h).imp (fun _ _ => id) ?_
    exact fun key value hvalue => (get?_eq_keywordsOf _ _).symm.trans (get?_won.1 hvalue).2.2
  joined other hother key _ value hvalue := by
    rw [List.mem_singleton.1 hother, get?_eq_keywordsOf] at hvalue
    exact (h.asserts key value hvalue).1
  content before other after hsplit _ _ key value hvalue := by
    obtain ⟨rfl, rfl, rfl⟩ := split_singleton hsplit
    rw [get?_eq_keywordsOf] at hvalue
    exact (h.asserts key value hvalue).2
  properties members hmembers name value hmem _ := by
    rw [declaredBy_singleton]
    cases hdeclared : declaredProperty? (keywordsOf layer) name with
    | none => exact upheldTo_nil
    | some sub =>
      have hsub : sub ∈ propertySchemas (keywordsOf layer) name := by
        rw [propertySchemas, hdeclared]
        exact List.mem_append_left _ (List.mem_singleton_self _)
      exact hup sub value (beneath_of_propertySchemas hsub) (IsInside.member hinst hmembers hmem).ordered
        ((h.members members hmembers name value hmem).1 sub hsub)
  further before other after hsplit _ sub hsub hschema _ members hmembers name value hmem hunclaimed := by
    obtain ⟨rfl, rfl, rfl⟩ := split_singleton hsplit
    have hnone := hunclaimed _ (List.mem_singleton_self _)
    rw [get?_eq_keywordsOf] at hsub
    exact hup sub value (.value hsub) (IsInside.member hinst hmembers hmem).ordered
      ((h.members members hmembers name value hmem).2 hnone sub hsub hschema)

end

/-! ## Schemas -/

section

variable {document given : Json}

theorem allReferences_erase_subset {keywords : Fields} (key : String) :
    (Json.object (keywords.erase key)).allReferences ⊆ (Json.object keywords).allReferences :=
  (inherited_refersOnly (· ∈ (Json.object keywords).allReferences)).erased (fun _ => id) key

theorem fulfils_nothing {here : Json → Prop} {inside : Json → Json → Prop} {inst : Json} :
    Fulfils here inside [] inst :=
  (fulfils_of_inPlace (List.forall_mem_nil _)).2 ⟨nofun, nofun, nofun, nofun, nofun⟩

theorem not_beneath_nil {sub : Json} : ¬ Beneath [] sub := by
  intro h
  cases h with
  | value h => cases h
  | listed h _ => cases h
  | entry h _ => cases h

theorem upheldTo_of_forall {depth : Nat} {schemas : List Json} {inst : Json}
    (h : ∀ schema ∈ schemas, UpheldTo document depth [schema] inst) :
    UpheldTo document depth schemas inst := by
  induction schemas with
  | nil => exact upheldTo_nil
  | cons schema rest ih =>
    rw [List.forall_mem_cons] at h
    exact h.1.append (ih h.2)

theorem withoutFragments_ne_false {schema inst : Json} (h : Evaluation.Accepts given schema inst) :
    withoutFragments schema ≠ .bool false := by
  intro hfalse
  cases schema with
  | bool flag =>
    cases hfalse
    exact Evaluation.not_passes_false h
  | _ => cases hfalse

/-- What is left of a composition without its fragments, as a layer on its own. -/
theorem upholds_withoutFragments {depth : Nat} {keywords : Fields} {inst : Json} (hhosts : Hosts document given)
    (hinst : inst.ordered = true) (hordered : (Json.object keywords).ordered = true)
    (hknown : (Json.object keywords).allReferences ⊆ given.allReferences)
    (hup : ∀ sub part, sub.ordered = true → sub.allReferences ⊆ given.allReferences → part.ordered = true →
      Evaluation.Accepts given sub part → UpheldTo document depth [sub] part)
    (h : Fulfils (fun sub => Evaluation.Accepts given sub inst) (Evaluation.Accepts given) keywords inst) :
    Upholds document (UpheldTo document depth) [.object (Fields.erase "allOf" keywords)] inst := by
  have herased : (Json.object (Fields.erase "allOf" keywords)).allReferences ⊆ given.allReferences :=
    List.Subset.trans (allReferences_erase_subset "allOf") hknown
  refine upholds_of_fulfils hhosts hinst (ordered_erase hordered "allOf") herased (by simp)
    (fun sub part hsub => ?below) (h.of_agree (fun key hkey _ => ?agree) fun sub hsub => ?fragments)
  case below =>
    refine hup sub part (hsub.ordered (ordered_erase hordered "allOf")) ?_
    exact List.Subset.trans hsub.allReferences_subset herased
  case agree => rw [keywordsOf, Fields.get?_erase, if_neg hkey.symm]
  case fragments =>
    rw [keywordsOf, conjuncts, Fields.get?_erase, if_pos rfl] at hsub
    cases hsub

/-- What a schema accepts, where its references lead to flattened targets, upholds the schema. -/
theorem upheldTo_of_accepts (hdocument : Followable document) (hhosts : Hosts document given)
    (depth : Nat) (pool : List String) (schema inst : Json) (hschema : schema.ordered = true)
    (hinst : inst.ordered = true) (hknown : schema.allReferences ⊆ given.allReferences)
    (hpool : Covers given pool schema) (h : Evaluation.Accepts given schema inst) :
    UpheldTo document depth [schema] inst := by
  cases depth with
  | zero => trivial
  | succ depth =>
    intro layers hlayers
    cases hlayers with
    | reference href htarget hrest =>
      rename_i found reference
      cases schema with
      | object keywords =>
        have hvalue := get?_of_reference? href
        have hmem := hpool.mem hvalue
        have hreference : reference ∈ document.allReferences :=
          hhosts.known (hknown (mem_allReferences_of_get? hvalue))
        obtain ⟨flat, hflat, hwalk⟩ := hhosts.target reference hreference found htarget
        have haccepts := (Evaluation.accepts_reference hhosts.ordered hhosts.unrepeated hinst hknown
          hvalue).1 h flat hflat
        have hupheld := upheldTo_of_accepts hdocument hhosts (depth + 1) (withoutReference reference pool)
          flat inst (ordered_of_targetOf hhosts.ordered hflat) hinst
          (allReferences_subset_of_targetOf hflat) (hpool.without hhosts.unrepeated hvalue hflat) haccepts
        have hfound := Json.ordered_of_resolve? hdocument.ordered htarget
        exact (standsFor_walked hdocument hfound hwalk).upheldTo hinst hupheld layers hrest
      | _ => cases href
    | layer href hmaps hrest =>
      have hfurther : ∀ sub part, sub.ordered = true → sub.allReferences ⊆ given.allReferences →
          part.ordered = true → Evaluation.Accepts given sub part → UpheldTo document depth [sub] part :=
        fun sub part hsub hbelow hpart => upheldTo_of_accepts hdocument hhosts depth given.references sub
          part hsub hpart hbelow (covers_references hbelow)
      cases schema with
      | object keywords =>
        have hfulfils := (Evaluation.accepts_keywords hschema hinst fun reference hvalue => by
          rw [Json.reference?, Json.getString?, Json.get?, hvalue] at href
          cases href).1 h
        have hown := upholds_withoutFragments hhosts hinst hschema hknown hfurther hfulfils
        have hfragments : UpheldTo document (depth + 1) (conjuncts keywords) inst := by
          refine upheldTo_of_forall fun fragment hfragment => ?_
          obtain ⟨value, hvalue, hmem⟩ := mem_conjuncts.1 hfragment
          have hbeneath : Beneath keywords fragment := .listed hvalue hmem
          have hsmaller := hbeneath.sizeOf_lt
          exact upheldTo_of_accepts hdocument hhosts (depth + 1) pool fragment inst
            (hbeneath.ordered hschema) hinst (List.Subset.trans hbeneath.allReferences_subset hknown)
            (hpool.beneath hbeneath) (hfulfils.all value hvalue fragment hmem)
        rw [keywordsOf, List.append_nil] at hrest
        exact hown.append (fun _ _ _ => UpheldTo.append) (hfragments _ hrest)
      | _ =>
        cases hrest
        exact upholds_of_fulfils hhosts hinst rfl (List.nil_subset _) (withoutFragments_ne_false h)
          (fun sub part hsub => absurd hsub not_beneath_nil) fulfils_nothing
-- as for the verdict itself, but that of parts nothing is said beyond the depth
termination_by (depth, pool.length, sizeOf schema)
decreasing_by
  · subst_eqs
    exact Prod.Lex.right _ (Prod.Lex.left _ _ (length_withoutReference_lt hmem))
  · subst_eqs
    exact Prod.Lex.left _ _ (Nat.lt_succ_self depth)
  · subst_eqs
    exact Prod.Lex.right _ (Prod.Lex.right _ hsmaller)

end

/-! ## Schemas without fragments -/

/-- A value in which no object has fragments. -/
inductive FreeOfFragments : Json → Prop where
  | object {fields : Fields} (hall : fields.get? "allOf" = none)
    (h : ∀ field ∈ fields, FreeOfFragments field.2) : FreeOfFragments (.object fields)
  | array {items : List Json} (h : ∀ item ∈ items, FreeOfFragments item) : FreeOfFragments (.array items)
  | other {value : Json} (hobject : value.isObject = false) (hitems : value.items? = none) :
    FreeOfFragments value

section

variable {document inst sub value : Json} {keywords : Fields} {up : List Json → Json → Prop}

theorem FreeOfFragments.fields (h : FreeOfFragments (.object keywords)) :
    keywords.get? "allOf" = none ∧ ∀ field ∈ keywords, FreeOfFragments field.2 := by
  cases h with
  | object hall h => exact ⟨hall, h⟩
  | other hobject _ => cases hobject

theorem FreeOfFragments.get? {key : String} (h : FreeOfFragments (.object keywords))
    (hvalue : keywords.get? key = some value) : FreeOfFragments value :=
  h.fields.2 _ (Fields.mem_of_get? hvalue)

theorem FreeOfFragments.beneath (h : FreeOfFragments (.object keywords)) (hsub : Beneath keywords sub) :
    FreeOfFragments sub := by
  cases hsub with
  | value hvalue => exact h.get? hvalue
  | listed hvalue hsub =>
    rename_i value
    cases value with
    | array items =>
      cases h.get? hvalue with
      | array hitems => exact hitems sub hsub
      | other _ hitems => cases hitems
    | _ => cases hsub
  | entry hentries hsub => exact (h.get? hentries).fields.2 _ hsub

theorem FreeOfFragments.uncomposed (h : FreeOfFragments value) : Uncomposed value := by
  induction h with
  | object hall _ ih => exact .object (by simp [hall]) fun field hfield _ => ih field hfield
  | array _ ih => exact .array ih
  | other hobject hitems => exact .other hobject hitems

theorem FreeOfFragments.hasClearMaps (h : FreeOfFragments (.object keywords)) : HasClearMaps keywords := by
  intro key _ entries hentries fragments hfragments
  cases (h.get? hentries).fields.1.symm.trans hfragments

theorem get?_won_nil {key : String} (hkey : key ∉ sharedKeywords) (hvalue : keywords.get? key = some value) :
    (won [] (.object keywords)).get? key = some value :=
  get?_won.2 ⟨hkey, List.forall_mem_nil _, hvalue⟩

/-! What a layer asks on its own is what all its keywords ask. -/

theorem Upholds.asserts_own (h : Upholds document up [.object keywords] inst) (key : String) (value : Json)
    (hvalue : keywords.get? key = some value) :
    Assertion.Holds key value inst ∧ contentFailures keywords key value inst = [] := by
  refine ⟨?assertion,
    h.content [] _ [] rfl (List.forall_mem_nil _) (List.forall_mem_nil _) key value hvalue⟩
  case assertion =>
    have hjoined : ∀ key ∈ sharedKeywords, key ∈ Assertion.keywords → key ∈ ["type", "required"] := by
      decide
    by_cases hkey : key ∈ sharedKeywords
    · by_cases hassertion : key ∈ Assertion.keywords
      · exact h.joined _ (List.mem_singleton_self _) key (hjoined key hkey hassertion) value hvalue
      · exact Assertion.holds_of_not_mem hassertion
    · exact (h.keywords [] _ [] rfl).asserts key value (get?_won_nil hkey hvalue)

theorem Upholds.membersPass_own (h : Upholds document up [.object keywords] inst) {members : Fields}
    (hmembers : inst = .object members) : MembersPass (fun sub => up [sub]) keywords members := by
  refine fun name value hmem => ⟨fun sub hsub => ?own, fun hnone sub hsub hschema => ?further⟩
  case own =>
    rcases List.mem_append.1 hsub with hdeclared | hmatched
    · have honly : declaredBy [.object keywords] name = [sub] := by
        rw [declaredBy_singleton, keywordsOf, Option.mem_toList.1 hdeclared]
        rfl
      have hupheld := h.properties members hmembers name value hmem
      rw [honly] at hupheld
      exact hupheld (.stacked (.string "") (.inl ⟨_, rfl⟩) (List.forall_mem_nil _))
    · obtain ⟨entry, hentry, rfl⟩ := List.mem_map.1 hmatched
      exact (h.keywords [] _ [] rfl).patterns members hmembers name value hmem entry
        (mem_matchingPatterns_of_get? (fun _ => get?_won_nil (by decide)) hentry)
  case further =>
    exact h.further [] _ [] rfl (List.forall_mem_nil _) sub hsub hschema (fun _ => rfl) members hmembers name
      value hmem (List.forall_mem_singleton.2 hnone)

theorem Upholds.itemsPass_own (h : Upholds document up [.object keywords] inst) {items : List Json}
    (hitems : inst = .array items) : ItemsPass (fun sub => up [sub]) keywords items := by
  have hshared : ∀ key ∈ ["items", "additionalItems"], key ∉ sharedKeywords := by decide
  intro i item hitem sub hsub
  exact (h.keywords [] _ [] rfl).items items hitems i item hitem sub
    (itemSchema?_of_get? (fun key hkey _ => get?_won_nil (hshared key hkey)) hsub)

/-- A layer without fragments that an instance upholds is fulfilled, if the instance and its parts satisfy
what they uphold of the schemas below. -/
theorem fulfils_of_upholds (hfree : FreeOfFragments (.object keywords)) (hinst : inst.ordered = true)
    (hsteady : ∀ sub, Beneath keywords sub → Steady document sub)
    (hhere : ∀ sub, Beneath keywords sub → Upheld document [sub] inst → Evaluation.Accepts document sub inst)
    (hinside : ∀ sub, Beneath keywords sub → ∀ part, IsInside inst part → Upheld document [sub] part →
      Evaluation.Accepts document sub part)
    (h : Upholds document (Upheld document) [.object keywords] inst) :
    Fulfils (fun sub => Evaluation.Accepts document sub inst) (Evaluation.Accepts document) keywords
      inst := by
  have hrespects := h.keywords [] _ [] rfl
  have huncomposed : ∀ {sub}, Beneath keywords sub → Uncomposed sub :=
    fun hsub => (hfree.beneath hsub).uncomposed
  have hlax : ∀ {sub}, Beneath keywords sub → StaysLax document sub :=
    fun hsub => .inr ⟨huncomposed hsub, hsteady _ hsub⟩
  refine
    { asserts := h.asserts_own
      all := ?all, any := ?any, one := ?one, not := ?not, condition := ?condition, members := ?members
      names := ?names, dependencies := ?dependencies, items := ?items, contains := ?contains }
  case all =>
    intro value hvalue
    cases hfree.fields.1.symm.trans hvalue
  case any =>
    intro value hvalue
    obtain ⟨sub, hsub, hupheld⟩ := hrespects.any value (get?_won_nil (by decide) hvalue)
    exact ⟨sub, hsub, hhere sub (.listed hvalue hsub) hupheld⟩
  case one =>
    intro value hvalue
    obtain ⟨⟨sub, hsub, hupheld⟩, hpairwise⟩ := hrespects.one value (get?_won_nil (by decide) hvalue)
    refine (exactlyOne_iff_exists (hpairwise.imp_of_mem fun ha hb hboth => ?_)).2
      ⟨sub, hsub, hhere sub (.listed hvalue hsub) hupheld⟩
    exact hboth (hlax (.listed hvalue ha)) (hlax (.listed hvalue hb))
  case not => exact fun sub hsub => hrespects.not sub (get?_won_nil (by decide) hsub) (hlax (.value hsub))
  case condition =>
    intro test htest
    have hwon := get?_won_nil (by decide) htest
    refine ⟨fun sub hsub haccepts => ?yes, fun sub hsub hrefuses => ?no⟩
    case yes =>
      exact hhere sub (.value hsub) (hrespects.yes test hwon sub (get?_won_nil (by decide) hsub)
        (hlax (.value htest)) haccepts)
    case no =>
      exact hhere sub (.value hsub) (hrespects.no test hwon sub (get?_won_nil (by decide) hsub)
        (huncomposed (.value htest)) (hsteady _ (.value htest)) hrefuses)
  case members =>
    intro members hmembers
    exact (h.membersPass_own hmembers).imp fun sub hsub _ value hmem =>
      hinside sub hsub value (.member hinst hmembers hmem)
  case names =>
    intro members hmembers sub hsub hschema name value hmem
    exact hinside sub (.value hsub) (.string name) (.key hmembers hmem)
      (hrespects.names members hmembers sub (get?_won_nil (by decide) hsub) hschema name value hmem)
  case dependencies =>
    intro members hmembers entries hentries name dependency hmem hname
    exact (hrespects.dependencies members hmembers entries (get?_won_nil (by decide) hentries) name
      dependency hmem hname).imp (hhere dependency (.entry hentries hmem))
  case items =>
    intro items hitems
    exact (h.itemsPass_own hitems).imp fun sub hsub item hmem =>
      hinside sub hsub item (.item hinst hitems hmem)
  case contains =>
    intro items hitems sub hsub
    obtain ⟨item, hmem, hupheld⟩ := hrespects.contains items hitems sub (get?_won_nil (by decide) hsub)
    exact ⟨item, hmem, hinside sub (.value hsub) item (.item hinst hitems hmem) hupheld⟩

theorem hasClearMaps_of_absent {keywords : Fields}
    (h : ∀ key ∈ ["properties", "patternProperties", "dependencies"], keywords.get? key = none) :
    HasClearMaps keywords := by
  intro key hkey entries hentries
  cases (h key hkey).symm.trans hentries

theorem Upheld.upholds {schema : Json} (h : Upheld document [schema] inst) (hlayer : IsLayer schema)
    (hmaps : HasClearMaps (keywordsOf schema)) : Upholds document (Upheld document) [schema] inst :=
  upheld_iff.1 h _ ((unfolds_of_isLayer hlayer).2 ⟨hmaps, [], rfl, .nil⟩)

theorem accepts_of_upheld (hdocument : Followable document) (pool : List String) (schema inst : Json)
    (hschema : schema.ordered = true) (hinst : inst.ordered = true)
    (hknown : schema.allReferences ⊆ document.allReferences) (hpool : Covers document pool schema)
    (hfree : FreeOfFragments schema) (htargets : ∀ reference, Needs document schema reference →
      ∀ target, targetOf document reference = .ok target → FreeOfFragments target)
    (h : Upheld document [schema] inst) : Evaluation.Accepts document schema inst := by
  cases schema with
  | object keywords =>
    cases href : (Json.object keywords).reference? with
    | some reference =>
      have hvalue := get?_of_reference? href
      have hmem := hpool.mem hvalue
      have hneeded : Needs document (.object keywords) reference :=
        ⟨reference, mem_allReferences_of_get? hvalue, .refl⟩
      rw [Evaluation.accepts_reference hdocument.ordered hdocument.unrepeated hinst hknown hvalue]
      intro target htarget
      have hfound := (hdocument.target_iff (hneeded.mem hknown)).1 htarget
      exact accepts_of_upheld hdocument (withoutReference reference pool) target inst
        (ordered_of_targetOf hdocument.ordered htarget) hinst (allReferences_subset_of_targetOf htarget)
        (hpool.without hdocument.unrepeated hvalue htarget) (htargets reference hneeded target htarget)
        (fun other hneeds => htargets other (hneeds.of_target hvalue htarget))
        (upheld_iff.2 fun layers hlayers => upheld_iff.1 h layers (.reference href hfound hlayers))
    | none =>
      have hbelow : ∀ {sub}, Beneath keywords sub → sub.allReferences ⊆ document.allReferences :=
        fun hsub => List.Subset.trans hsub.allReferences_subset hknown
      have hfurther : ∀ {sub}, Beneath keywords sub → ∀ reference, Needs document sub reference →
          ∀ target, targetOf document reference = .ok target → FreeOfFragments target :=
        fun hsub reference hneeds => htargets reference (hneeds.beneath hsub)
      refine (Evaluation.accepts_keywords hschema hinst fun reference hvalue => ?unreferring).2
        (fulfils_of_upholds hfree hinst (fun sub hsub reference hneeds target htarget => ?steady)
          (fun sub hsub hupheld => ?here) (fun sub hsub part ⟨hinner, hpart⟩ hupheld => ?inside)
          (h.upholds ⟨href, hfree.fields.1⟩ hfree.hasClearMaps))
      case unreferring =>
        rw [Json.reference?, Json.getString?, Json.get?, hvalue] at href
        cases href
      case steady => exact (hfurther hsub reference hneeds target htarget).uncomposed
      case here =>
        have hsmaller := hsub.sizeOf_lt
        exact accepts_of_upheld hdocument pool sub inst (hsub.ordered hschema) hinst (hbelow hsub)
          (hpool.beneath hsub) (hfree.beneath hsub) (hfurther hsub) hupheld
      case inside =>
        exact accepts_of_upheld hdocument document.references sub part (hsub.ordered hschema) hpart
          (hbelow hsub) (covers_references (hbelow hsub)) (hfree.beneath hsub) (hfurther hsub) hupheld
  | bool flag =>
    cases flag with
    | true => exact Evaluation.passes_true
    | false => exact absurd (List.mem_singleton_self _) (h.upholds ⟨rfl, rfl⟩ (hasClearMaps_of_absent (by decide))).possible
  | _ => simp [Evaluation.Accepts, Evaluation.findings, Evaluation.findingsWith]
-- as for the verdict itself: smaller instances, then fewer references, then smaller schemas
termination_by (sizeOf inst, pool.length, sizeOf schema)
decreasing_by
  · subst_eqs
    exact Prod.Lex.right _ (Prod.Lex.right _ hsmaller)
  · exact Prod.Lex.left _ _ hinner
  · exact Prod.Lex.right _ (Prod.Lex.left _ _ (length_withoutReference_lt hmem))

/-- To uphold a schema that leads to no fragments is to satisfy it. -/
theorem upheld_iff_accepts (hdocument : Followable document) {schema : Json}
    (hschema : schema.ordered = true) (hinst : inst.ordered = true)
    (hknown : schema.allReferences ⊆ document.allReferences) (hfree : FreeOfFragments schema)
    (htargets : ∀ reference, Needs document schema reference →
      ∀ target, targetOf document reference = .ok target → FreeOfFragments target) :
    Upheld document [schema] inst ↔ Evaluation.Accepts document schema inst := by
  refine ⟨fun h => ?_, fun h depth => ?_⟩
  · exact accepts_of_upheld hdocument document.references schema inst hschema hinst hknown
      (covers_references hknown) hfree htargets h
  · exact upheldTo_of_accepts hdocument (hosts_self hdocument) depth document.references schema inst
      hschema hinst hknown (covers_references hknown) h

end

/-! ## Flattened schemas -/

section

variable {document : Json}

/-- Flattening loses only what is overridden: an instance that satisfies what comes of a schema upholds the
schema, with the references that are left followed in the document, and in the flattened document if they
lead there to flattened targets. -/
theorem upheld_of_flattened {inst : Json} (hdocument : Followable document) (hinst : inst.ordered = true) :
    (∀ depth followed node flat, node.ordered = true → node.allReferences ⊆ document.allReferences →
      flattenNode? document depth followed node = some flat →
        Evaluation.findings document flat inst = [] → Upheld document [node] inst) ∧
    (ClearReferences document → ∀ steps node, ClearWay document steps →
      document.follow? steps = some node → ∃ flat, (flattenCompositions document).follow? steps = some flat ∧
        (Evaluation.findings (flattenCompositions document) flat inst = [] →
          Upheld document [node] inst)) := by
  refine ⟨fun within followed node flat hnode hknown hflat haccepts depth => ?_,
    fun hclear steps node hway hsteps => ?_⟩
  · have hordered := (inherited_ordered.flattening
      (fun _ _ _ _ _ htarget => Json.ordered_of_resolve? hdocument.ordered htarget) within).1
      followed node flat hnode hflat
    have hflatKnown : RefersOnly (· ∈ document.allReferences) flat :=
      (refersOnly_flattening (fun _ => id) within).1 followed node flat (fun _ hmem => hknown hmem) hflat
    have hupheld := upheldTo_of_accepts hdocument (hosts_self hdocument) depth document.references flat inst
      hordered hinst hflatKnown (covers_references hflatKnown) haccepts
    exact ((flatStands hdocument depth within).1 followed node flat hnode hflat).upheldTo hinst hupheld
  · have hrel := follow?_walked (walked_flattenCompositions document) hway
    rw [hsteps] at hrel
    cases hfollow : (flattenCompositions document).follow? steps with
    | none =>
      rw [hfollow] at hrel
      cases hrel
    | some flat =>
      rw [hfollow] at hrel
      obtain ⟨hwalk⟩ := hrel
      refine ⟨flat, rfl, fun haccepts depth => ?_⟩
      have hknown := Json.allReferences_subset_of_follow? hfollow
      have hupheld := upheldTo_of_accepts hdocument (hosts_flattened hdocument hclear) depth
        (flattenCompositions document).references flat inst
        (Json.ordered_of_follow? (ordered_flattenCompositions hdocument.ordered) hfollow) hinst hknown
        (covers_references hknown) haccepts
      exact (standsFor_walked hdocument (Json.ordered_of_follow? hdocument.ordered hsteps) hwalk).upheldTo
        hinst hupheld

end

/-- What has no name does not uphold a composition with a named schema. -/
theorem not_upheld_nameless :
    ¬ Upheld petDocument [composed namedReference anyObject] (.object []) := by
  intro h
  have hobject : Unfolds petDocument [anyObject] [anyObject] :=
    (unfolds_of_isLayer ⟨rfl, rfl⟩).2 ⟨hasClearMaps_of_absent (by decide), [], rfl, .nil⟩
  have hnamed : Unfolds petDocument [namedSchema, anyObject] [namedSchema, anyObject] :=
    (unfolds_of_isLayer ⟨rfl, rfl⟩).2 ⟨hasClearMaps_of_absent (by decide), _, rfl, hobject⟩
  have hfragments : Unfolds petDocument [namedReference, anyObject] [namedSchema, anyObject] :=
    .reference rfl rfl hnamed
  have hlayers : Unfolds petDocument [composed namedReference anyObject]
      [.object [], namedSchema, anyObject] :=
    .layer rfl (hasClearMaps_of_absent (by decide)) hfragments
  have hname := (upheld_iff.1 h _ hlayers).joined namedSchema (by simp) "required" (by decide) _ rfl
  cases hname "name" (List.mem_singleton_self _)

/-- A pet with a name satisfies what a composition of a named schema and a type is flattened to, in both
documents, and upholds the composition. Something without a name does not. -/
theorem composedPet_upheld : Followable petDocument ∧ ClearReferences petDocument ∧
    (composed namedReference anyObject).ordered = true ∧ namedPet.ordered = true ∧
    (composed namedReference anyObject).allReferences ⊆ petDocument.allReferences ∧
    flattenNode? petDocument 8 [] (composed namedReference anyObject) = some mergedPet ∧
    Evaluation.findings petDocument mergedPet namedPet = [] ∧
    Upheld petDocument [composed namedReference anyObject] namedPet ∧
    ClearWay petDocument ["components", "schemas", "Pet"] ∧
    petDocument.follow? ["components", "schemas", "Pet"] = some (composed namedReference anyObject) ∧
    (flattenCompositions petDocument).follow? ["components", "schemas", "Pet"] = some mergedPet ∧
    (Evaluation.findings (flattenCompositions petDocument) mergedPet namedPet = [] ∧
      Upheld petDocument [composed namedReference anyObject] namedPet) ∧
    ¬ Upheld petDocument [composed namedReference anyObject] (.object []) := by
  have hmergeable := mergeable_composed mergeable_namedReference mergeable_anyObject
  have hflat : flattenNode? petDocument 8 [] (composed namedReference anyObject) = some mergedPet := rfl
  have hlax := (laxer_flattening followable_petDocument 8).1 [] _ _ hmergeable hflat
  have haccepts := hlax.accepts namedPet rfl accepts_namedPet
  have hway : ClearWay petDocument ["components", "schemas", "Pet"] := clearWay_component nofun
  have hpet : (flattenCompositions petDocument).follow? ["components", "schemas", "Pet"] =
      some mergedPet := rfl
  have hthere := accepts_flattenCompositions followable_petDocument clearReferences_petDocument
    petDocument.references mergedPet namedPet hlax.mergeable rfl
    (Json.allReferences_subset_of_follow? hpet) (covers_references hlax.mergeable.known) haccepts
  obtain ⟨hnodes, hplaces⟩ := upheld_of_flattened followable_petDocument (rfl : namedPet.ordered = true)
  have hupheld := hnodes 8 [] _ mergedPet rfl hmergeable.known hflat haccepts
  obtain ⟨flat, hfollow, hsame⟩ := hplaces clearReferences_petDocument ["components", "schemas", "Pet"] _
    hway rfl
  cases hpet.symm.trans hfollow
  exact ⟨followable_petDocument, clearReferences_petDocument, rfl, rfl, hmergeable.known, hflat, haccepts,
    hupheld, hway, rfl, hpet, ⟨hthere, hsame hthere⟩, not_upheld_nameless⟩

/-! ## A bound that is lost -/

def shortWord : Json := .object [("minLength", .number (.int 1))]

def longWord : Json := .object [("minLength", .number (.int 5))]

def wordDocument : Json := componentsDocument [("Word", composed shortWord longWord)]

/-- Of two bounds the first one stays, and what satisfies it need not satisfy the other one. -/
theorem longWord_overridden : wordDocument.ordered = true ∧ wordDocument.allReferences = [] ∧
    wordDocument.follow? ["components", "schemas", "Word"] = some (composed shortWord longWord) ∧
    flattenNode? wordDocument 8 [] (composed shortWord longWord) = some shortWord ∧
    (flattenCompositions wordDocument).follow? ["components", "schemas", "Word"] = some shortWord ∧
    Evaluation.findings (flattenCompositions wordDocument) shortWord (.string "ab") = [] ∧
    Evaluation.findings wordDocument longWord (.string "ab") ≠ [] := by
  refine ⟨by decide, rfl, rfl, rfl, rfl, ?_, fun haccepts => ?_⟩
  · refine accepts_of_assertion (by decide) rfl rfl fun limit hlimit => ?_
    cases hlimit
    decide
  · have hfulfils := (Evaluation.accepts_keywords rfl rfl (fun _ hvalue => by cases hvalue)).1 haccepts
    exact absurd ((hfulfils.asserts "minLength" (.number (.int 5)) rfl).1 5 rfl) (by decide)

end ApiContract
