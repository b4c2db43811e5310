import ApiContract.Proofs.Preparation.Loosening
import Mathlib.Data.List.Forall2

/-! # Flat compositions are laxer

Flattening a separable schema never makes it stricter: it merges the fragments of compositions, which is
laxer, and it goes on inside, where a laxer schema makes the whole laxer.

* `Walked`, `WalkedFields`: what the walk makes of the parts of a schema.
* `fulfils_walked`: what the keywords ask after the walk they asked before.
* `laxer_composedFields?`: a composition with its fragments merged.
* `laxer_flattening`: the walk, by its depth. -/

set_option autoImplicit false

namespace ApiContract

/-! ## Values after the walk -/

theorem eq_of_mapM {α : Type} {f : α → Option α} {items results : List α}
    (h : items.mapM f = some results)
    (hf : ∀ item ∈ items, ∀ result, f item = some result → result = item) : results = items := by
  have hall := forall₂_of_mapM h
  clear h
  induction hall with
  | nil => rfl
  | cons hitem _ ih =>
    rw [List.forall_mem_cons] at hf
    rw [hf.1 _ hitem, ih hf.2]

/-- What the walk makes of a value on its way: the value as it is, or flattened. -/
inductive Walked (document : Json) (depth : Nat) (followed : List String) : Json → Json → Prop where
  | kept (value : Json) : Walked document depth followed value value
  | flattened {within : Nat} {value flat : Json} (hwithin : within ≤ depth)
    (h : flattenNode? document within followed value = some flat) :
    Walked document depth followed value flat

/-- What the walk makes of the fields of an object. Data stay as they are. -/
structure WalkedFields (document : Json) (depth : Nat) (followed : List String)
    (fields results : Fields) : Prop where
  absent : ∀ key, results.get? key = none ↔ fields.get? key = none
  origin : ∀ key result, results.get? key = some result → ∃ value, fields.get? key = some value ∧
    Walked document depth followed value result ∧ (isDataKeyword key = true → result = value)

section

variable {document : Json} {depth : Nat} {followed : List String} {value result : Json}

theorem Walked.sameKind (h : Walked document depth followed value result) : SameKind value result := by
  cases h with
  | kept => exact .refl _
  | flattened _ h => exact sameKind_of_flattenNode? h

theorem walkedFields_of_mapValues? {within : Nat} {fields results : Fields} (hwithin : within ≤ depth)
    (h : Fields.mapValues? (flattenField? document within followed) fields = some results) :
    WalkedFields document depth followed fields results where
  absent key := by
    have hkeys := Fields.keys_of_mapValues? h
    have hnone : ∀ given : Fields, given.get? key = none ↔ ∀ name ∈ given.map Prod.fst, name ≠ key := by
      intro given
      rw [Fields.get?_eq_none_iff, List.forall_mem_map]
    rw [hnone, hnone, hkeys]
  origin key result hresult := by
    rw [Fields.get?_of_mapValues? h, Option.bind_eq_some_iff] at hresult
    obtain ⟨value, hvalue, hflat⟩ := hresult
    unfold flattenField? at hflat
    split at hflat
    · cases hflat
      exact ⟨result, hvalue, .kept _, fun _ => rfl⟩
    · rename_i hdata
      exact ⟨value, hvalue, .flattened hwithin hflat, fun h => absurd h hdata⟩

theorem Walked.array {items : List Json} (h : Walked document depth followed (.array items) result) :
    ∃ results, result = .array results ∧ List.Forall₂ (Walked document depth followed) items results := by
  cases h with
  | kept => exact ⟨items, rfl, List.forall₂_same.2 fun _ _ => .kept _⟩
  | flattened hwithin h =>
    rename_i within
    cases within with
    | zero => cases h
    | succ within =>
      rw [flattenNode?_array] at h
      obtain ⟨results, hresults, rfl⟩ := Option.map_eq_some_iff.1 h
      exact ⟨results, rfl, (forall₂_of_mapM hresults).imp fun _ _ hflat =>
        .flattened (Nat.le_of_succ_le hwithin) hflat⟩

theorem Walked.object {fields : Fields} (h : Walked document depth followed (.object fields) result)
    (hall : ∀ fragments, fields.get? "allOf" ≠ some (.array fragments)) :
    ∃ results, result = .object results ∧ WalkedFields document depth followed fields results := by
  cases h with
  | kept =>
    exact ⟨fields, rfl, fun _ => Iff.rfl, fun _ value hvalue => ⟨value, hvalue, .kept value, fun _ => rfl⟩⟩
  | flattened hwithin h =>
    rename_i within
    cases within with
    | zero => cases h
    | succ within =>
      rw [flattenNode?_object, composedFields?_of_no_fragments hall, Option.bind_some] at h
      obtain ⟨results, hresults, rfl⟩ := Option.map_eq_some_iff.1 h
      exact ⟨results, rfl, walkedFields_of_mapValues? (Nat.le_of_succ_le hwithin) hresults⟩

theorem flattenNode?_of_uncomposed (hvalue : Uncomposed value) {within : Nat}
    (h : flattenNode? document within followed value = some result) : result = value := by
  induction hvalue generalizing within result with
  | object hall _ ih =>
    cases within with
    | zero => cases h
    | succ within =>
      rw [flattenNode?_object, composedFields?_of_no_fragments hall, Option.bind_some] at h
      obtain ⟨results, hresults, rfl⟩ := Option.map_eq_some_iff.1 h
      refine congrArg Json.object (eq_of_mapM hresults fun field hfield result hresult => ?_)
      obtain ⟨flat, hflat, rfl⟩ := Option.map_eq_some_iff.1 hresult
      unfold flattenField? at hflat
      split at hflat
      · cases hflat
        rfl
      · rename_i hdata
        rw [ih field hfield (Bool.eq_false_iff.2 hdata) hflat]
  | array _ ih =>
    cases within with
    | zero => cases h
    | succ within =>
      rw [flattenNode?_array] at h
      obtain ⟨results, hresults, rfl⟩ := Option.map_eq_some_iff.1 h
      exact congrArg Json.array (eq_of_mapM hresults fun item hitem result => ih item hitem)
  | other hobject hitems =>
    rename_i value
    cases within with
    | zero => cases h
    | succ within =>
      cases value with
      | object fields => cases hobject
      | array items => cases hitems
      | _ =>
        cases h
        rfl

theorem Walked.eq_of_uncomposed (h : Walked document depth followed value result)
    (hvalue : Uncomposed value) : result = value := by
  cases h with
  | kept => rfl
  | flattened _ h => exact flattenNode?_of_uncomposed hvalue h

end

/-! ## Schemas after the walk -/

section

variable {document : Json} {depth : Nat} {followed : List String} {keywords results : Fields}

theorem WalkedFields.value (hwalked : WalkedFields document depth followed keywords results)
    {key : String} {result : Json} (hresult : results.get? key = some result) :
    ∃ value, keywords.get? key = some value ∧ Walked document depth followed value result := by
  obtain ⟨value, hvalue, hwalk, -⟩ := hwalked.origin key result hresult
  exact ⟨value, hvalue, hwalk⟩

/-- Values that must not become laxer stay as they are. -/
theorem WalkedFields.get?_of_exact (hwalked : WalkedFields document depth followed keywords results)
    (h : HasSeparateKeywords document keywords) {key : String} {result : Json}
    (hkey : key ∈ exactKeywords) (hresult : results.get? key = some result) :
    keywords.get? key = some result := by
  obtain ⟨value, hvalue, hwalk, hdata⟩ := hwalked.origin key result hresult
  cases hname : isDataKeyword key with
  | true => rw [hvalue, hdata hname]
  | false => rw [hvalue, hwalk.eq_of_uncomposed (h.exact key hkey hname value hvalue)]

theorem separate_walked (hwalked : WalkedFields document depth followed keywords results)
    (h : HasSeparateKeywords document keywords) : HasSeparateKeywords document results where
  unpaired key hkey := (hwalked.absent key).2 (h.unpaired key hkey)
  reference result hresult := by
    obtain ⟨value, hvalue, hwalk⟩ := hwalked.value hresult
    obtain ⟨text, rfl⟩ := h.reference value hvalue
    exact ⟨text, hwalk.eq_of_uncomposed (.other rfl rfl)⟩
  exact key hkey hdata result hresult :=
    h.exact key hkey hdata result (hwalked.get?_of_exact h hkey hresult)
  strict sub hsub := by
    refine h.strict sub ?_
    cases hsub with
    | not hresult => exact .not (hwalked.get?_of_exact h (by decide) hresult)
    | one hresult hmem => exact .one (hwalked.get?_of_exact h (by decide) hresult) hmem
  entries entries hentries := by
    obtain ⟨value, hvalue, hwalk, -⟩ := hwalked.origin _ _ hentries
    have hkind := hwalk.sameKind
    cases value with
    | object given =>
      obtain ⟨hall, hnames⟩ := h.entries given hvalue
      obtain ⟨_, heq, hinner⟩ := hwalk.object hall
      cases heq
      refine ⟨fun fragments hfragments => ?_, fun name names hname => ?_⟩
      · obtain ⟨held, hheld, hinner, -⟩ := hinner.origin _ _ hfragments
        obtain ⟨items, rfl⟩ := hinner.sameKind.exists_array
        exact hall items hheld
      · obtain ⟨held, hheld, hinner, -⟩ := hinner.origin _ _ hname
        obtain ⟨items, rfl⟩ := hinner.sameKind.exists_array
        have huncomposed := hnames name items hheld
        exact hinner.eq_of_uncomposed huncomposed ▸ huncomposed
    | _ => cases hkind

/-- The schemas of properties of a separable schema are no composition taken together. -/
theorem declaredProperty?_ne_fragments (hparts : ∀ sub, LaxPart keywords sub → IsSeparable document sub)
    (fragments : List Json) : declaredProperty? keywords "allOf" ≠ some (.array fragments) := by
  intro hfragments
  have hpart := hparts _ (.property hfragments)
  cases hpart

/-- The schemas of properties are walked name by name: the object that holds them is no composition. -/
theorem declaredProperty?_walked (hwalked : WalkedFields document depth followed keywords results)
    (hmap : ∀ fragments, declaredProperty? keywords "allOf" ≠ some (.array fragments)) (name : String) :
    (declaredProperty? results name = none ↔ declaredProperty? keywords name = none) ∧
      ∀ result, declaredProperty? results name = some result →
        ∃ value, declaredProperty? keywords name = some value ∧
          Walked document depth followed value result := by
  cases hvalue : keywords.get? "properties" with
  | none =>
    have hresult := (hwalked.absent _).2 hvalue
    simp [declaredProperty?, hvalue, hresult]
  | some value =>
    have hsome : results.get? "properties" ≠ none := by
      rw [ne_eq, hwalked.absent, hvalue]
      exact Option.some_ne_none value
    obtain ⟨result, hresult⟩ := Option.ne_none_iff_exists'.1 hsome
    obtain ⟨held, hheld, hwalk⟩ := hwalked.value hresult
    cases hvalue.symm.trans hheld
    cases value with
    | object given =>
      have hall : ∀ fragments, Fields.get? "allOf" given ≠ some (.array fragments) :=
        fun fragments hfragments => hmap fragments ((declaredProperty?_of_object hvalue).trans hfragments)
      obtain ⟨inner, rfl, hinner⟩ := hwalk.object hall
      rw [declaredProperty?_of_object hvalue, declaredProperty?_of_object hresult]
      exact ⟨hinner.absent name, fun result => hinner.value⟩
    | _ =>
      have hkind := hwalk.sameKind
      cases hkind <;> simp [declaredProperty?, hvalue, hresult]

theorem Walked.listed {value result sub : Json} (h : Walked document depth followed value result)
    (hsub : sub ∈ ApiContract.listed result) :
    ∃ item ∈ ApiContract.listed value, Walked document depth followed item sub := by
  obtain ⟨given, rfl, hmem⟩ := mem_listed.1 hsub
  obtain ⟨items, rfl⟩ := h.sameKind.exists_array
  obtain ⟨_, heq, hall⟩ := h.array
  cases heq
  obtain ⟨i, hi⟩ := List.mem_iff_getElem?.1 hmem
  obtain ⟨item, hitem, hwalk⟩ := exists_getElem?_of_forall₂ hall hi
  exact ⟨item, mem_listed.2 ⟨items, rfl, List.mem_of_getElem? hitem⟩, hwalk⟩

theorem Walked.exists_listed {value result sub : Json}
    (h : Walked document depth followed value result) (hsub : sub ∈ ApiContract.listed value) :
    ∃ item ∈ ApiContract.listed result, Walked document depth followed sub item := by
  obtain ⟨items, rfl, hmem⟩ := mem_listed.1 hsub
  obtain ⟨given, rfl, hall⟩ := h.array
  obtain ⟨i, hi⟩ := List.mem_iff_getElem?.1 hmem
  obtain ⟨item, hitem, hwalk⟩ := exists_getElem?_of_forall₂ hall.flip hi
  exact ⟨item, mem_listed.2 ⟨given, rfl, List.mem_of_getElem? hitem⟩, hwalk⟩

theorem laxPart_walked (hwalked : WalkedFields document depth followed keywords results)
    (hseparate : HasSeparateKeywords document keywords)
    (hparts : ∀ sub, LaxPart keywords sub → IsSeparable document sub) {result : Json}
    (h : LaxPart results result) :
    ∃ value, LaxPart keywords value ∧ Walked document depth followed value result := by
  cases h with
  | single hkey hresult =>
    obtain ⟨value, hvalue, hwalk⟩ := hwalked.value hresult
    exact ⟨value, .single hkey hvalue, hwalk⟩
  | item hresult hitems =>
    obtain ⟨value, hvalue, hwalk⟩ := hwalked.value hresult
    exact ⟨value, .item hvalue (hwalk.sameKind.items?_eq_none hitems), hwalk⟩
  | listed hkey hresult hsub =>
    obtain ⟨value, hvalue, hwalk⟩ := hwalked.value hresult
    obtain ⟨item, hitem, hinner⟩ := hwalk.listed hsub
    exact ⟨item, .listed hkey hvalue hitem, hinner⟩
  | property hresult =>
    have hmap := declaredProperty?_ne_fragments hparts
    obtain ⟨value, hvalue, hwalk⟩ := (declaredProperty?_walked hwalked hmap _).2 _ hresult
    exact ⟨value, .property hvalue, hwalk⟩
  | dependency hresult hentry hitems =>
    obtain ⟨value, hvalue, hwalk⟩ := hwalked.value hresult
    obtain ⟨given, rfl⟩ := hwalk.sameKind.exists_object
    obtain ⟨_, heq, hinner⟩ := hwalk.object (hseparate.entries given hvalue).1
    cases heq
    obtain ⟨held, hheld, hwalk⟩ := hinner.value hentry
    exact ⟨held, .dependency hvalue hheld (hwalk.sameKind.items?_eq_none hitems), hwalk⟩

theorem isItemSchema_of_walked {value result : Json} (h : Walked document depth followed value result)
    (hresult : isItemSchema result = true) : isItemSchema value = true := by
  have hkind := h.sameKind
  cases hkind with
  | refl => exact hresult
  | array => exact hresult
  | object => rfl

theorem propertySchemaOf?_walked (hwalked : WalkedFields document depth followed keywords results)
    (hparts : ∀ sub, LaxPart keywords sub → IsSeparable document sub) {name : String} {result : Json}
    (h : propertySchemaOf? results name = some result) :
    ∃ value, propertySchemaOf? keywords name = some value ∧ LaxPart keywords value ∧
      Walked document depth followed value result := by
  obtain ⟨hnone, hsome⟩ := declaredProperty?_walked hwalked (declaredProperty?_ne_fragments hparts) name
  unfold propertySchemaOf? at h ⊢
  cases hdeclared : declaredProperty? results name with
  | some found =>
    rw [hdeclared, Option.some_or] at h
    cases h
    obtain ⟨value, hvalue, hwalk⟩ := hsome _ hdeclared
    rw [hvalue, Option.some_or]
    exact ⟨value, rfl, .property hvalue, hwalk⟩
  | none =>
    rw [hdeclared, Option.none_or, Option.filter_eq_some_iff] at h
    obtain ⟨value, hvalue, hwalk⟩ := hwalked.value h.1
    rw [hnone.1 hdeclared, Option.none_or]
    exact ⟨value, Option.filter_eq_some_iff.2 ⟨hvalue, isItemSchema_of_walked hwalk h.2⟩,
      .single (by decide) hvalue, hwalk⟩

theorem itemSchema?_walked (hwalked : WalkedFields document depth followed keywords results)
    (hseparate : HasSeparateKeywords document keywords) {place : Nat} {result : Json}
    (h : itemSchema? results place = some result) :
    ∃ value, itemSchema? keywords place = some value ∧ LaxPart keywords value ∧
      Walked document depth followed value result := by
  rcases (separate_walked hwalked hseparate).itemSchema?_eq_some.1 h with
    ⟨tuple, htuple, hplace⟩ | ⟨hresult, hitem⟩
  · obtain ⟨value, hvalue, hwalk⟩ := hwalked.value htuple
    obtain ⟨given, rfl⟩ := hwalk.sameKind.exists_array
    obtain ⟨_, heq, hall⟩ := hwalk.array
    cases heq
    obtain ⟨sub, hsub, hinner⟩ := exists_getElem?_of_forall₂ hall hplace
    have hlisted : sub ∈ listed (.array given) := mem_listed.2 ⟨given, rfl, List.mem_of_getElem? hsub⟩
    exact ⟨sub, hseparate.itemSchema?_eq_some.2 (.inl ⟨given, hvalue, hsub⟩),
      .listed (by decide) hvalue hlisted, hinner⟩
  · obtain ⟨value, hvalue, hwalk⟩ := hwalked.value hresult
    have hitem := isItemSchema_of_walked hwalk hitem
    have hsingle : value.items? = none := by
      cases value with
      | array items => cases hitem
      | _ => rfl
    exact ⟨value, hseparate.itemSchema?_eq_some.2 (.inr ⟨hvalue, hitem⟩), .item hvalue hsingle, hwalk⟩

theorem dependencyHolds_of_schema {here : Json → Prop} {fields : Fields} {dependency : Json}
    (h : dependency.items? = none) : DependencyHolds here fields dependency ↔ here dependency := by
  cases dependency with
  | array names => cases h
  | _ => exact Iff.rfl

theorem dependencyHolds_walked {here there : Json → Prop} {fields : Fields} {value result : Json}
    (hwalk : Walked document depth followed value result)
    (hnames : ∀ names, value = .array names → Uncomposed (.array names))
    (hhere : value.items? = none → here value → there result)
    (h : DependencyHolds here fields value) : DependencyHolds there fields result := by
  cases hitems : value.items? with
  | some names =>
    have hvalue : value = .array names := by
      cases value with
      | array given => exact congrArg Json.array (Option.some.inj hitems)
      | _ => cases hitems
    subst hvalue
    rw [hwalk.eq_of_uncomposed (hnames names rfl)]
    exact h
  | none =>
    have hresult : result.items? = none := by
      cases hwalk.sameKind with
      | refl => exact hitems
      | array => cases hitems
      | object => rfl
    exact (dependencyHolds_of_schema hresult).2 (hhere hitems ((dependencyHolds_of_schema hitems).1 h))

theorem asserts_walked {inst : Json} (hwalked : WalkedFields document depth followed keywords results)
    (hseparate : HasSeparateKeywords document keywords)
    (h : ∀ key value, keywords.get? key = some value →
      Assertion.Holds key value inst ∧ contentFailures keywords key value inst = [])
    (key : String) (result : Json) (hresult : results.get? key = some result) :
    Assertion.Holds key result inst ∧ contentFailures results key result inst = [] := by
  have hresults := separate_walked hwalked hseparate
  by_cases hkey : key ∈ exactKeywords
  · have hvalue := hwalked.get?_of_exact hseparate hkey hresult
    rw [hseparate.contentFailures_eq hresults hvalue]
    exact h key result hvalue
  · rw [exactKeywords, List.mem_append, not_or] at hkey
    refine ⟨Assertion.holds_of_not_mem hkey.1, contentFailures_of_ne _ _ ?_ ?_⟩
    · rintro rfl
      exact hkey.2 (by decide)
    · rintro rfl
      rw [hresults.unpaired "contentEncoding" (by decide)] at hresult
      cases hresult

theorem membersPass_walked {inside within : Json → Json → Prop} {fields : Fields}
    (hwalked : WalkedFields document depth followed keywords results)
    (hseparate : HasSeparateKeywords document keywords)
    (hparts : ∀ sub, LaxPart keywords sub → IsSeparable document sub)
    (hinside : ∀ value result, LaxPart keywords value → Walked document depth followed value result →
      ∀ name part, (name, part) ∈ fields → inside value part → within result part)
    (h : MembersPass inside keywords fields) : MembersPass within results fields := by
  have hresults := separate_walked hwalked hseparate
  refine (membersPass_of_noPatterns (hresults.unpaired _ (by decide))).2 fun name part hmem result hresult => ?_
  obtain ⟨value, hvalue, hpart, hwalk⟩ := propertySchemaOf?_walked hwalked hparts hresult
  have hold := (membersPass_of_noPatterns (hseparate.unpaired _ (by decide))).1 h name part hmem value hvalue
  exact hinside value result hpart hwalk name part hmem hold

theorem itemsPass_walked {inside within : Json → Json → Prop} {items : List Json}
    (hwalked : WalkedFields document depth followed keywords results)
    (hseparate : HasSeparateKeywords document keywords)
    (hinside : ∀ value result, LaxPart keywords value → Walked document depth followed value result →
      ∀ part ∈ items, inside value part → within result part)
    (h : ItemsPass inside keywords items) : ItemsPass within results items := by
  intro i item hitem result hresult
  obtain ⟨value, hvalue, hpart, hwalk⟩ := itemSchema?_walked hwalked hseparate hresult
  exact hinside value result hpart hwalk item (List.mem_of_getElem? hitem) (h i item hitem value hvalue)

/-- A dependency that the walk leaves comes of one of the same name. -/
theorem exists_dependency_of_walked {entries : Fields} {name : String} {dependency : Json}
    (hordered : (Json.object results).ordered = true)
    (hwalked : WalkedFields document depth followed keywords results)
    (hseparate : HasSeparateKeywords document keywords)
    (hentries : results.get? "dependencies" = some (.object entries)) (hmem : (name, dependency) ∈ entries) :
    ∃ given held, keywords.get? "dependencies" = some (.object given) ∧ (name, held) ∈ given ∧
      Walked document depth followed held dependency ∧
        (∀ names, held = .array names → Uncomposed (.array names)) ∧
          (held.items? = none → LaxPart keywords held) := by
  obtain ⟨value, hvalue, hwalk⟩ := hwalked.value hentries
  obtain ⟨given, rfl⟩ := hwalk.sameKind.exists_object
  obtain ⟨hall, hnames⟩ := hseparate.entries given hvalue
  obtain ⟨_, heq, hinner⟩ := hwalk.object hall
  cases heq
  have hkeys := (Json.ordered_object.1 (Json.ordered_of_get? hordered hentries)).1
  obtain ⟨held, hheld, hwalk⟩ := hinner.value (Fields.get?_of_mem hkeys hmem)
  refine ⟨given, held, hvalue, Fields.mem_of_get? hheld, hwalk, ?_, fun hsingle => ?_⟩
  · rintro names rfl
    exact hnames name names hheld
  · exact .dependency hvalue hheld hsingle

/-- What the keywords ask after the walk, they asked before. -/
theorem fulfils_walked {here there : Json → Prop} {inside within : Json → Json → Prop} {inst : Json}
    (hinst : inst.ordered = true) (hordered : (Json.object results).ordered = true)
    (hwalked : WalkedFields document depth followed keywords results)
    (hseparate : HasSeparateKeywords document keywords)
    (hparts : ∀ sub, LaxPart keywords sub → IsSeparable document sub)
    (hstrict : ∀ sub, StrictPart keywords sub → (here sub ↔ there sub))
    (hhere : ∀ value result, LaxPart keywords value → Walked document depth followed value result →
      here value → there result)
    (hinside : ∀ value result, LaxPart keywords value → Walked document depth followed value result →
      ∀ part, IsInside inst part → inside value part → within result part)
    (h : Fulfils here inside keywords inst) : Fulfils there within results inst where
  asserts := asserts_walked hwalked hseparate h.asserts
  all result hresult sub hsub := by
    obtain ⟨value, hvalue, hwalk⟩ := hwalked.value hresult
    obtain ⟨item, hitem, hinner⟩ := hwalk.listed hsub
    exact hhere item sub (.listed (by decide) hvalue hitem) hinner (h.all value hvalue item hitem)
  any result hresult := by
    obtain ⟨value, hvalue, hwalk⟩ := hwalked.value hresult
    obtain ⟨item, hitem, haccepts⟩ := h.any value hvalue
    obtain ⟨sub, hsub, hinner⟩ := hwalk.exists_listed hitem
    exact ⟨sub, hsub, hhere item sub (.listed (by decide) hvalue hitem) hinner haccepts⟩
  one result hresult := by
    have hvalue := hwalked.get?_of_exact hseparate (by decide) hresult
    exact (exactlyOne_congr fun sub hsub => hstrict sub (.one hvalue hsub)).1 (h.one result hvalue)
  not result hresult := by
    have hvalue := hwalked.get?_of_exact hseparate (by decide) hresult
    exact mt (hstrict result (.not hvalue)).2 (h.not result hvalue)
  condition test _ := by
    have hresults := separate_walked hwalked hseparate
    refine ⟨fun sub hsub => ?yes, fun sub hsub => ?no⟩
    case yes =>
      rw [hresults.unpaired "then" (by decide)] at hsub
      cases hsub
    case no =>
      rw [hresults.unpaired "else" (by decide)] at hsub
      cases hsub
  members fields hfields := by
    refine membersPass_walked hwalked hseparate hparts ?_ (h.members fields hfields)
    exact fun value result hpart hwalk name part hmem =>
      hinside value result hpart hwalk part (.member hinst hfields hmem)
  names fields hfields result hresult hschema name value hmem := by
    obtain ⟨sub, hsub, hwalk⟩ := hwalked.value hresult
    have hold := h.names fields hfields sub hsub (isItemSchema_of_walked hwalk hschema) name value hmem
    exact hinside sub result (.single (by decide) hsub) hwalk _ (.key hfields hmem) hold
  dependencies fields hfields entries hentries name dependency hmem hname := by
    obtain ⟨given, held, hgiven, hheld, hwalk, hnames, hpart⟩ :=
      exists_dependency_of_walked hordered hwalked hseparate hentries hmem
    exact dependencyHolds_walked hwalk hnames (fun hsingle => hhere held dependency (hpart hsingle) hwalk)
      (h.dependencies fields hfields given hgiven name held hheld hname)
  items items hitems := by
    refine itemsPass_walked hwalked hseparate ?_ (h.items items hitems)
    exact fun value result hpart hwalk part hmem =>
      hinside value result hpart hwalk part (.item hinst hitems hmem)
  contains items hitems result hresult := by
    obtain ⟨value, hvalue, hwalk⟩ := hwalked.value hresult
    obtain ⟨item, hitem, hold⟩ := h.contains items hitems value hvalue
    exact ⟨item, hitem,
      hinside value result (.single (by decide) hvalue) hwalk item (.item hinst hitems hitem) hold⟩

end

/-! ## Compositions -/

/-- The keywords that a fragment has come to, behind all references: they accept what it accepts. -/
structure Resolved (document fragment : Json) (keywords : Fields) : Prop where
  mergeable : Mergeable document (.object keywords)
  reference : (Json.object keywords).reference? = none
  accepts : ∀ inst, inst.ordered = true → Evaluation.Accepts document fragment inst →
    Evaluation.Accepts document (.object keywords) inst

section

variable {document : Json} {depth : Nat} {followed : List String} {fields keywords : Fields}

theorem mergeable_erase (h : Mergeable document (.object fields)) (key : String) :
    Mergeable document (.object (fields.erase key)) := by
  have hold : ∀ {other value}, Fields.get? other (fields.erase key) = some value →
      fields.get? other = some value := by
    intro other value hvalue
    rw [Fields.get?_erase] at hvalue
    split at hvalue
    · cases hvalue
    · exact hvalue
  refine ⟨inherited_ordered.erased h.ordered key, (inherited_refersOnly _).erased h.references key,
    .object ⟨fun other hother => ?_, fun value hvalue => h.separate.reference value (hold hvalue),
      fun other hother hdata value hvalue => h.separate.exact other hother hdata value (hold hvalue),
      fun entries hentries => h.separate.entries entries (hold hentries), fun sub hsub => ?_⟩
      fun sub hsub => ?_⟩
  · rw [Fields.get?_erase, h.separate.unpaired other hother, ite_self]
  · refine h.separate.strict sub ?_
    cases hsub with
    | not hvalue => exact .not (hold hvalue)
    | one hvalue hmem => exact .one (hold hvalue) hmem
  · refine (h.part ?_).separable
    cases hsub with
    | single hkey hvalue => exact .single hkey (hold hvalue)
    | item hvalue hitems => exact .item (hold hvalue) hitems
    | listed hkey hvalue hmem => exact .listed hkey (hold hvalue) hmem
    | property hdeclared =>
      obtain ⟨properties, hproperties, hsub⟩ := declaredProperty?_eq_some.1 hdeclared
      exact .property (declaredProperty?_eq_some.2 ⟨properties, hold hproperties, hsub⟩)
    | dependency hvalue hentry hitems => exact .dependency (hold hvalue) hentry hitems

/-- Without its fragments a composition is laxer. -/
theorem laxer_erase (hdocument : Followable document)
    (h : Mergeable document (.object fields)) :
    Laxer document (.object fields) (.object (fields.erase "allOf")) := by
  have hget : ∀ key, key ≠ "allOf" → Fields.get? key fields = Fields.get? key (fields.erase "allOf") := by
    intro key hkey
    rw [Fields.get?_erase, if_neg hkey.symm]
  have hrest := mergeable_erase h "allOf"
  have hsame : (Json.object (fields.erase "allOf")).reference? = (Json.object fields).reference? := by
    rw [Json.reference?, Json.reference?, Json.getString?, Json.getString?, Json.get?, Json.get?,
      hget "$ref" (by decide)]
  refine ⟨hrest, hsame, fun inst hinst haccepts => ?_⟩
  cases href : (Json.object fields).reference? with
  | some reference =>
    exact (accepts_of_same_reference hdocument hinst h hrest href hsame).1 haccepts
  | none =>
    refine (accepts_iff_fulfils hrest hinst (hsame.trans href)).2
      (Fulfils.of_agree (fun key hkey _ => hget key hkey) (fun sub hsub => ?_)
        ((accepts_iff_fulfils h hinst href).1 haccepts))
    rw [conjuncts, Fields.get?_erase, if_pos rfl] at hsub
    cases hsub

/-- The fragments of a composition, merged one after the other into what is left of it. -/
theorem laxer_mergeFragments? (hdocument : Followable document)
    (ihfragment : ∀ fragment keywords, Mergeable document fragment →
      resolveFragment? document depth followed fragment = some (some keywords) →
        Resolved document fragment keywords)
    {fragments : List Json} {target merged : Fields} (htarget : Mergeable document (.object target))
    (hfragments : ∀ fragment ∈ fragments, Mergeable document fragment)
    (hmerged : fragments.foldlM (mergeFragment? document depth followed) (some target) =
      some (some merged)) :
    Mergeable document (.object merged) ∧
      (Json.object merged).reference? = (Json.object target).reference? ∧
      ∀ inst, inst.ordered = true → Evaluation.Accepts document (.object target) inst →
        ((Json.object target).reference? = none →
          ∀ fragment ∈ fragments, Evaluation.Accepts document fragment inst) →
        Evaluation.Accepts document (.object merged) inst := by
  induction fragments generalizing target with
  | nil =>
    cases hmerged
    exact ⟨htarget, rfl, fun _ _ haccepts _ => haccepts⟩
  | cons fragment rest ih =>
    rw [List.forall_mem_cons] at hfragments
    rw [List.foldlM_cons] at hmerged
    obtain ⟨next, hnext, hmerged⟩ := Option.bind_eq_some_iff.1 hmerged
    obtain ⟨resolved, hresolved, rfl⟩ := Option.map_eq_some_iff.1 hnext
    cases hown : resolved.bind (mergeFields target) with
    | none =>
      rw [hown, foldlM_mergeFragment?_none] at hmerged
      cases hmerged
    | some flat =>
      rw [hown] at hmerged
      obtain ⟨held, rfl, hflat⟩ := Option.bind_eq_some_iff.1 hown
      have hheld := ihfragment fragment held hfragments.1 hresolved
      have hboth : ∀ a b, LaxPart target a → LaxPart held b → Meets document a b (mergeSchemas a b) :=
        fun a b ha hb => meets_mergeSchemas hdocument a b (htarget.part ha)
          (hheld.mergeable.part hb)
      have hmergeable := mergeable_mergeFields htarget hheld.mergeable
        (fun a b ha hb => (hboth a b ha hb).mergeable.separable) hflat
      have hsame := reference?_mergeFields hheld.mergeable hheld.reference hflat
      obtain ⟨hlast, hreference, haccepts⟩ := ih hmergeable hfragments.2 hmerged
      refine ⟨hlast, hreference.trans hsame, fun inst hinst htake hall => haccepts inst hinst ?_ ?_⟩
      · exact accepts_mergeFields hdocument htarget hheld.mergeable hmergeable hheld.reference
          hboth hflat hinst htake fun href =>
            hheld.accepts inst hinst (hall href fragment (List.mem_cons_self ..))
      · exact fun href other hother => hall (hsame.symm.trans href) other (List.mem_cons_of_mem _ hother)

/-- A composition with its fragments merged. -/
theorem laxer_composedFields? (hdocument : Followable document)
    (ihfragment : ∀ fragment keywords, Mergeable document fragment →
      resolveFragment? document depth followed fragment = some (some keywords) →
        Resolved document fragment keywords)
    (h : Mergeable document (.object fields))
    (hkeywords : composedFields? document depth followed fields = some keywords) :
    Laxer document (.object fields) (.object keywords) := by
  unfold composedFields? at hkeywords
  split at hkeywords
  · rename_i fragments hall
    obtain ⟨flat, hflat, rfl⟩ := Option.map_eq_some_iff.1 hkeywords
    cases flat with
    | none => exact .refl h
    | some merged =>
      have hmem : ∀ fragment ∈ fragments, fragment ∈ listed (.array fragments) :=
        fun fragment hfragment => mem_listed.2 ⟨fragments, rfl, hfragment⟩
      have hrest := laxer_erase hdocument h
      obtain ⟨hmergeable, hreference, haccepts⟩ := laxer_mergeFragments? hdocument ihfragment
        hrest.mergeable
        (fun fragment hfragment => h.part (.listed (by decide) hall (hmem fragment hfragment))) hflat
      refine ⟨hmergeable, hreference.trans hrest.reference, fun inst hinst htake => ?_⟩
      refine haccepts inst hinst (hrest.accepts inst hinst htake) fun href fragment hfragment => ?_
      have hfulfils := (accepts_iff_fulfils h hinst (hrest.reference.symm.trans href)).1 htake
      exact hfulfils.all _ hall fragment (hmem fragment hfragment)
  · cases hkeywords
    exact .refl h

end

/-! ## The walk -/

section

variable {document : Json} {depth : Nat} {followed : List String} {keywords results : Fields}

theorem laxer_of_walked
    (ihnode : ∀ within ≤ depth, ∀ node flat, Mergeable document node →
      flattenNode? document within followed node = some flat → Laxer document node flat)
    {value result : Json} (hvalue : Mergeable document value)
    (h : Walked document depth followed value result) : Laxer document value result := by
  cases h with
  | kept => exact .refl hvalue
  | flattened hwithin h => exact ihnode _ hwithin value result hvalue h

theorem reference?_walked (h : HasSeparateKeywords document keywords)
    (hwalked : WalkedFields document depth followed keywords results) :
    (Json.object results).reference? = (Json.object keywords).reference? := by
  have hget : Fields.get? "$ref" results = Fields.get? "$ref" keywords := by
    cases hresult : Fields.get? "$ref" results with
    | none => rw [(hwalked.absent _).1 hresult]
    | some result =>
      obtain ⟨value, hvalue, hwalk⟩ := hwalked.value hresult
      obtain ⟨text, rfl⟩ := h.reference value hvalue
      rw [hvalue, hwalk.eq_of_uncomposed (.other rfl rfl)]
  rw [Json.reference?, Json.reference?, Json.getString?, Json.getString?, Json.get?, Json.get?, hget]

/-- A schema whose parts have been walked. -/
theorem laxer_walkedFields (hdocument : Followable document)
    (ihnode : ∀ within ≤ depth, ∀ node flat, Mergeable document node →
      flattenNode? document within followed node = some flat → Laxer document node flat)
    (h : Mergeable document (.object keywords)) (hordered : (Json.object results).ordered = true)
    (hreferences : RefersOnly (Admissible document) (.object results))
    (hwalked : WalkedFields document depth followed keywords results) :
    Laxer document (.object keywords) (.object results) := by
  have hparts : ∀ sub, LaxPart keywords sub → IsSeparable document sub :=
    fun sub hsub => (h.part hsub).separable
  have hlax : ∀ value result, LaxPart keywords value → Walked document depth followed value result →
      Laxer document value result :=
    fun value result hpart hwalk => laxer_of_walked ihnode (h.part hpart) hwalk
  have hmergeable : Mergeable document (.object results) := by
    refine ⟨hordered, hreferences, .object (separate_walked hwalked h.separate) fun sub hsub => ?_⟩
    obtain ⟨value, hpart, hwalk⟩ := laxPart_walked hwalked h.separate hparts hsub
    exact (hlax value sub hpart hwalk).mergeable.separable
  have hsame := reference?_walked h.separate hwalked
  refine ⟨hmergeable, hsame, fun inst hinst haccepts => ?_⟩
  cases href : (Json.object keywords).reference? with
  | some reference =>
    exact (accepts_of_same_reference hdocument hinst h hmergeable href hsame).1 haccepts
  | none =>
    exact (accepts_iff_fulfils hmergeable hinst (hsame.trans href)).2
      (fulfils_walked hinst hordered hwalked h.separate hparts (fun _ _ => Iff.rfl)
        (fun value result hpart hwalk => (hlax value result hpart hwalk).accepts inst hinst)
        (fun value result hpart hwalk part hinside =>
          (hlax value result hpart hwalk).accepts part hinside.ordered)
        ((accepts_iff_fulfils h hinst href).1 haccepts))

theorem laxer_flattenNode? (hdocument : Followable document)
    (ihnode : ∀ within ≤ depth, ∀ node flat, Mergeable document node →
      flattenNode? document within followed node = some flat → Laxer document node flat)
    (ihfragment : ∀ fragment keywords, Mergeable document fragment →
      resolveFragment? document depth followed fragment = some (some keywords) →
        Resolved document fragment keywords)
    {node flat : Json} (h : Mergeable document node)
    (hflat : flattenNode? document (depth + 1) followed node = some flat) :
    Laxer document node flat := by
  have hordered := ordered_of_flattenNode? hdocument.ordered h.ordered hflat
  have hreferences := ((inherited_refersOnly (Admissible document)).flattening
    (fun _ _ _ hknown href htarget => hknown.followed hdocument href htarget) _).1 _ _ _ h.references hflat
  cases h.separable with
  | bool b =>
    cases hflat
    exact .refl h
  | object _ _ =>
    rename_i fields _ _
    rw [flattenNode?_object, Option.bind_eq_some_iff] at hflat
    obtain ⟨keywords, hkeywords, hflat⟩ := hflat
    obtain ⟨results, hresults, rfl⟩ := Option.map_eq_some_iff.1 hflat
    have hcomposed := laxer_composedFields? hdocument ihfragment h hkeywords
    exact hcomposed.trans (laxer_walkedFields hdocument ihnode hcomposed.mergeable hordered
      hreferences (walkedFields_of_mapValues? (Nat.le_refl depth) hresults))

theorem resolved_resolveFragment? (hdocument : Followable document)
    (ihnode : ∀ node flat, Mergeable document node →
      flattenNode? document depth followed node = some flat → Laxer document node flat)
    (ihfragment : ∀ followed fragment keywords, Mergeable document fragment →
      resolveFragment? document depth followed fragment = some (some keywords) →
        Resolved document fragment keywords)
    {fragment : Json} (h : Mergeable document fragment)
    (hkeywords : resolveFragment? document (depth + 1) followed fragment = some (some keywords)) :
    Resolved document fragment keywords := by
  unfold resolveFragment? at hkeywords
  split at hkeywords
  · rename_i reference href
    split at hkeywords
    · cases hkeywords
    · split at hkeywords
      · rename_i target htarget
        have hfound := (hdocument.target_iff (h.references.reference href).1).2 htarget
        have hresolved := ihfragment _ target keywords (h.followed hdocument href hfound) hkeywords
        cases fragment with
        | object fields =>
          refine ⟨hresolved.mergeable, hresolved.reference, fun inst hinst haccepts => ?_⟩
          exact hresolved.accepts inst hinst ((Evaluation.accepts_reference hdocument.ordered
            hdocument.unrepeated hinst h.known (get?_of_reference? href)).1 haccepts target hfound)
        | _ => cases href
      · cases hkeywords
  · rename_i href
    obtain ⟨flat, hflat, hkeywords⟩ := Option.map_eq_some_iff.1 hkeywords
    have hlax := ihnode fragment flat h hflat
    unfold flatFragment? at hkeywords
    split at hkeywords
    · split at hkeywords
      · cases hkeywords
      · cases hkeywords
        exact ⟨hlax.mergeable, hlax.reference.trans href, hlax.accepts⟩
    · cases hkeywords

/-- Flattening makes separable schemas laxer, however deep it goes. -/
theorem laxer_flattening (hdocument : Followable document)
    (depth : Nat) :
    (∀ followed node flat, Mergeable document node →
      flattenNode? document depth followed node = some flat → Laxer document node flat) ∧
    (∀ followed fragment keywords, Mergeable document fragment →
      resolveFragment? document depth followed fragment = some (some keywords) →
        Resolved document fragment keywords) := by
  induction depth using Nat.strongRecOn with
  | ind depth ih =>
    cases depth with
    | zero =>
      refine ⟨fun followed node flat _ h => ?_, fun followed fragment keywords _ h => ?_⟩
      · cases h
      · cases h
    | succ depth =>
      have hnode : ∀ followed, ∀ within ≤ depth, ∀ node flat, Mergeable document node →
          flattenNode? document within followed node = some flat → Laxer document node flat :=
        fun followed within hwithin => (ih within (Nat.lt_succ_of_le hwithin)).1 followed
      have hfragment := (ih depth (Nat.lt_succ_self depth)).2
      refine ⟨fun followed node flat h hflat => ?_, fun followed fragment keywords h hkeywords => ?_⟩
      · exact laxer_flattenNode? hdocument (hnode followed) (hfragment followed) h hflat
      · exact resolved_resolveFragment? hdocument (hnode followed depth (Nat.le_refl depth))
          hfragment h hkeywords

end

end ApiContract
