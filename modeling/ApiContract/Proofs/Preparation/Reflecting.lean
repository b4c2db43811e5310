import ApiContract.Proofs.Preparation.Overriding
import ApiContract.Proofs.Schema.Cases

/-! # Flattened schemas uphold what they come of

Whoever upholds a flattened schema upholds the schema that it comes of, in every list of schemas.

* `Respects.of_walked`: keywords after the walk ask what they asked before.
* `replaces_walked`: a layer after the walk replaces it.
* `reference?_flattening`: flattening adds no reference to a schema, and removes none.
* `standsFor_mergeFragments?`: a schema with fragments merged into it stands for them.
* `standsFor_flattening`: a flattened schema stands for the schema. -/

set_option autoImplicit false

namespace ApiContract

/-! ## Values after the walk -/

section

variable {document inst : Json} {depth : Nat} {followed : List String} {value result : Json}
  {keywords results : Fields}

theorem Walked.eq_of_scalar (h : Walked document depth followed value result)
    (hobject : value.isObject = false) (hitems : value.items? = none) : result = value :=
  h.eq_of_uncomposed (.other hobject hitems)

theorem Walked.string_iff (h : Walked document depth followed value result) (text : String) :
    result = .string text ↔ value = .string text := by
  constructor
  · rintro rfl
    cases h.sameKind
    rfl
  · rintro rfl
    exact h.eq_of_scalar rfl rfl

theorem Walked.bool_iff (h : Walked document depth followed value result) (flag : Bool) :
    result = .bool flag ↔ value = .bool flag := by
  constructor
  · rintro rfl
    cases h.sameKind
    rfl
  · rintro rfl
    exact h.eq_of_scalar rfl rfl

theorem string?_walked (h : Walked document depth followed value result) :
    result.string? = value.string? := by
  cases h.sameKind <;> rfl

theorem filterMap_string?_walked {items given : List Json}
    (h : List.Forall₂ (Walked document depth followed) items given) :
    given.filterMap Json.string? = items.filterMap Json.string? := by
  induction h with
  | nil => rfl
  | cons hwalk _ ih => rw [List.filterMap_cons, List.filterMap_cons, string?_walked hwalk, ih]

theorem exists_mem_of_forall₂ {r : Json → Json → Prop} {items given : List Json} {item : Json}
    (h : List.Forall₂ r items given) (hitem : item ∈ items) : ∃ other ∈ given, r item other := by
  obtain ⟨i, hi⟩ := List.mem_iff_getElem?.1 hitem
  obtain ⟨other, hother, hr⟩ := exists_getElem?_of_forall₂ h.flip hi
  exact ⟨other, List.mem_of_getElem? hother, hr⟩

theorem pairwise_of_forall₂ {r p q : Json → Json → Prop} {items given : List Json}
    (h : List.Forall₂ r items given) (hgiven : given.Pairwise p)
    (himp : ∀ a b first second, r a first → r b second → p first second → q a b) :
    items.Pairwise q := by
  induction h with
  | nil => exact .nil
  | cons hhead htail ih =>
    rw [List.pairwise_cons] at hgiven
    refine List.pairwise_cons.2 ⟨fun other hother => ?_, ih hgiven.2⟩
    obtain ⟨second, hsecond, hr⟩ := exists_mem_of_forall₂ htail hother
    exact himp _ _ _ _ hhead hr (hgiven.1 second hsecond)

/-- A keyword is still there after the walk. -/
theorem WalkedFields.exists_result (h : WalkedFields document depth followed keywords results)
    {key : String} (hvalue : keywords.get? key = some value) :
    ∃ result, results.get? key = some result ∧ Walked document depth followed value result ∧
      (isDataKeyword key = true → result = value) := by
  have hsome : results.get? key ≠ none := by
    rw [ne_eq, h.absent, hvalue]
    exact Option.some_ne_none value
  obtain ⟨result, hresult⟩ := Option.ne_none_iff_exists'.1 hsome
  obtain ⟨held, hheld, hwalk, hdata⟩ := h.origin key result hresult
  cases hvalue.symm.trans hheld
  exact ⟨result, hresult, hwalk, hdata⟩

/-! ## Assertions after the walk -/

theorem holds_of_shape {key : String} (hkey : key ∉ ["type", "required", "enum", "const"])
    (hvalue : value.isObject = true ∨ value.items?.isSome = true) : Assertion.Holds key value inst := by
  have hlimit : Assertion.countLimit? value = none := by
    cases value with
    | array items => rfl
    | object fields => rfl
    | _ => simp [Json.isObject, Json.items?] at hvalue
  unfold Assertion.Holds
  split <;> simp_all [Json.isObject, Json.items?]

/-- What the walk makes of the value of an assertion asks the same. -/
theorem holds_of_walked {key : String} (hwalk : Walked document depth followed value result)
    (hdata : isDataKeyword key = true → result = value) (h : Assertion.Holds key result inst) :
    Assertion.Holds key value inst := by
  by_cases hkey : key ∈ ["type", "required", "enum", "const"]
  · simp only [List.mem_cons, List.not_mem_nil, or_false] at hkey
    rcases hkey with rfl | rfl | rfl | rfl
    · have hnames : Assertion.typeNames result = Assertion.typeNames value := by
        have hkind := hwalk.sameKind
        cases hkind with
        | refl => rfl
        | object => rfl
        | array =>
          obtain ⟨_, heq, hitems⟩ := hwalk.array
          cases heq
          exact filterMap_string?_walked hitems
      obtain ⟨type, hname, htype⟩ := h
      exact ⟨type, hnames ▸ hname, htype⟩
    · have hkind := hwalk.sameKind
      cases hkind with
      | refl => exact h
      | object => exact h
      | array =>
        obtain ⟨_, heq, hitems⟩ := hwalk.array
        cases heq
        cases inst with
        | object fields =>
          intro name hname
          obtain ⟨other, hother, hinner⟩ := exists_mem_of_forall₂ hitems hname
          exact h name ((hinner.string_iff name).2 rfl ▸ hother)
        | _ => trivial
    · rwa [hdata rfl] at h
    · rwa [hdata rfl] at h
  · have hkind := hwalk.sameKind
    cases hkind with
    | refl => exact h
    | array => exact holds_of_shape hkey (.inr rfl)
    | object => exact holds_of_shape hkey (.inl rfl)

theorem jsonContentFailures_of_not_string (text : String) (h : value.string? = none) :
    jsonContentFailures (some value) text = [] := by
  cases value with
  | string other => cases h
  | _ => rfl

/-- Content that the walked keywords find nothing wrong with. -/
theorem contentFailures_of_walked (hwalked : WalkedFields document depth followed keywords results)
    (h : ∀ key value, results.get? key = some value → contentFailures results key value inst = [])
    (key : String) (value : Json) (hvalue : keywords.get? key = some value) :
    contentFailures keywords key value inst = [] := by
  have hkept : ∀ {key value text}, keywords.get? key = some value → value = .string text →
      results.get? key = some (.string text) := by
    rintro key _ text hvalue rfl
    obtain ⟨result, hresult, hwalk, -⟩ := hwalked.exists_result hvalue
    rw [hresult, (hwalk.string_iff text).2 rfl]
  unfold contentFailures
  split
  · rename_i text
    split
    · rename_i hkey
      subst hkey
      split
      · have hmedia := h _ _ (hkept hvalue rfl)
        rw [contentFailures] at hmedia
        simp only [if_true] at hmedia
        cases hencoding : keywords.get? "contentEncoding" with
        | none =>
          rwa [(hwalked.absent _).2 hencoding] at hmedia
        | some encoding =>
          cases hstring : encoding.string? with
          | none => exact jsonContentFailures_of_not_string text hstring
          | some name =>
            have heq : encoding = .string name := by
              cases encoding with
              | string other => exact congrArg Json.string (Option.some.inj hstring)
              | _ => cases hstring
            rw [hkept hencoding heq] at hmedia
            rwa [heq]
      · rfl
    · split
      · rename_i hkey
        rw [Bool.and_eq_true, decide_eq_true_iff] at hkey
        obtain ⟨rfl, hmedia⟩ := hkey
        split
        · have hencoding := h _ _ (hkept hvalue rfl)
          have hsame : results.hasKey "contentMediaType" = keywords.hasKey "contentMediaType" := by
            rw [Fields.hasKey, Fields.hasKey, Bool.eq_iff_iff, Option.isSome_iff_ne_none,
              Option.isSome_iff_ne_none]
            exact (hwalked.absent _).not
          rw [contentFailures] at hencoding
          simpa [hsame, hmedia] using hencoding
        · rfl
      · rfl
  · rfl

/-! ## Applied schemas after the walk -/

/-- The object that a keyword holds, entry by entry. -/
theorem exists_walked_entries {key : String} {entries : Fields}
    (hwalked : WalkedFields document depth followed keywords results)
    (hentries : keywords.get? key = some (.object entries))
    (hclear : ∀ fragments, entries.get? "allOf" ≠ some (.array fragments)) :
    ∃ given, results.get? key = some (.object given) ∧
      WalkedFields document depth followed entries given := by
  obtain ⟨result, hresult, hwalk, -⟩ := hwalked.exists_result hentries
  obtain ⟨given, rfl, hinner⟩ := hwalk.object hclear
  exact ⟨given, hresult, hinner⟩

theorem exists_walked_pattern {name : String} {entry : String × Json}
    (hwalked : WalkedFields document depth followed keywords results) (hmaps : HasClearMaps keywords)
    (hordered : ∀ key value, keywords.get? key = some value → value.ordered = true)
    (hentry : entry ∈ matchingPatterns keywords name) :
    ∃ other ∈ matchingPatterns results name, Walked document depth followed entry.2 other.2 := by
  obtain ⟨pattern, sub⟩ := entry
  obtain ⟨patterns, hpatterns, hmem, hmatch⟩ := mem_matchingPatterns.1 hentry
  obtain ⟨given, hgiven, hinner⟩ := exists_walked_entries hwalked hpatterns
    (hmaps _ (by decide) patterns hpatterns)
  have hkeys := (Json.ordered_object.1 (hordered _ _ hpatterns)).1
  obtain ⟨result, hresult, hwalk, -⟩ := hinner.exists_result (Fields.get?_of_mem hkeys hmem)
  exact ⟨(pattern, result),
    mem_matchingPatterns.2 ⟨given, hgiven, Fields.mem_of_get? hresult, hmatch⟩, hwalk⟩

theorem matchingPatterns_eq_nil_of_walked {name : String}
    (hwalked : WalkedFields document depth followed keywords results) (hmaps : HasClearMaps keywords)
    (hnone : matchingPatterns keywords name = []) : matchingPatterns results name = [] := by
  refine List.eq_nil_iff_forall_not_mem.2 fun entry hentry => ?_
  obtain ⟨given, hgiven, hmem, hmatch⟩ := mem_matchingPatterns.1 hentry
  obtain ⟨held, hheld, hwalk⟩ := hwalked.value hgiven
  obtain ⟨patterns, rfl⟩ := hwalk.sameKind.exists_object
  obtain ⟨_, heq, hinner⟩ := hwalk.object (hmaps _ (by decide) patterns hheld)
  cases heq
  have hpresent : Fields.get? entry.1 patterns ≠ none := fun habsent =>
    Fields.get?_eq_none_iff.1 ((hinner.absent entry.1).2 habsent) entry hmem rfl
  obtain ⟨sub, hsub⟩ := Option.ne_none_iff_exists'.1 hpresent
  have hmatched := mem_matchingPatterns.2 ⟨patterns, hheld, Fields.mem_of_get? hsub, hmatch⟩
  rw [hnone] at hmatched
  cases hmatched

theorem isItemSchema_walked (h : Walked document depth followed value result)
    (hvalue : isItemSchema value = true) : isItemSchema result = true := by
  have hkind := h.sameKind
  cases hkind with
  | refl => exact hvalue
  | array => exact hvalue
  | object => rfl

theorem exists_walked_item {place : Nat} {sub : Json}
    (hwalked : WalkedFields document depth followed keywords results)
    (hsub : itemSchema? keywords place = some sub) :
    ∃ result, itemSchema? results place = some result ∧ Walked document depth followed sub result := by
  rcases itemSchema?_eq_some.1 hsub with ⟨tuple, htuple, hplace⟩ | ⟨hvalue, hschema⟩
  · obtain ⟨_, hresult, hwalk, -⟩ := hwalked.exists_result htuple
    obtain ⟨given, rfl, hitems⟩ := hwalk.array
    rcases hplace with hplace | ⟨hnone, hfurther, hschema⟩
    · obtain ⟨result, hitem, hinner⟩ := exists_getElem?_of_forall₂ hitems.flip hplace
      exact ⟨result, itemSchema?_eq_some.2 (.inl ⟨given, hresult, .inl hitem⟩), hinner⟩
    · obtain ⟨result, hlast, hinner, -⟩ := hwalked.exists_result hfurther
      have hbeyond : given[place]? = none := by
        rw [List.getElem?_eq_none_iff] at hnone ⊢
        rwa [← hitems.length_eq]
      exact ⟨result, itemSchema?_eq_some.2
        (.inl ⟨given, hresult, .inr ⟨hbeyond, hlast, isItemSchema_walked hinner hschema⟩⟩), hinner⟩
  · obtain ⟨result, hresult, hwalk, -⟩ := hwalked.exists_result hvalue
    exact ⟨result, itemSchema?_eq_some.2 (.inr ⟨hresult, isItemSchema_walked hwalk hschema⟩), hwalk⟩

theorem listed_walked (h : Walked document depth followed value result) :
    List.Forall₂ (Walked document depth followed) (listed value) (listed result) := by
  cases value with
  | array items =>
    obtain ⟨given, rfl, hitems⟩ := h.array
    exact hitems
  | _ =>
    have hkind := h.sameKind
    cases hkind <;> exact .nil

theorem dependencyHolds_of_walked {here there : Json → Prop} {members : Fields}
    (hwalk : Walked document depth followed value result) (hhere : there result → here value)
    (h : DependencyHolds there members result) : DependencyHolds here members value := by
  have hkind := hwalk.sameKind
  cases hkind with
  | refl =>
    cases value with
    | array names => exact h
    | _ => exact hhere h
  | object => exact hhere h
  | array =>
    obtain ⟨_, heq, hitems⟩ := hwalk.array
    cases heq
    intro name hname
    obtain ⟨other, hother, hinner⟩ := exists_mem_of_forall₂ hitems hname
    exact h name ((hinner.string_iff name).2 rfl ▸ hother)

theorem exists_listed_of_walked {here there : Json → Prop} (hwalk : Walked document depth followed value result)
    (hhere : ∀ sub ∈ listed value, ∀ other, Walked document depth followed sub other → there other → here sub)
    (h : ∃ other ∈ listed result, there other) : ∃ sub ∈ listed value, here sub := by
  obtain ⟨other, hother, hthere⟩ := h
  obtain ⟨sub, hsub, hinner⟩ := hwalk.listed hother
  exact ⟨sub, hsub, hhere sub hsub other hinner hthere⟩

/-- Listed schemas of which no two accept an instance after the walk were so before. -/
theorem pairwise_of_walked
    (hlax : ∀ value result, Walked document depth followed value result → StaysLax document value →
      StaysLax document result ∧
        (Evaluation.Accepts document value inst → Evaluation.Accepts document result inst))
    (hwalk : Walked document depth followed value result)
    (h : (listed result).Pairwise fun a b => StaysLax document a → StaysLax document b →
      Evaluation.Accepts document a inst → ¬ Evaluation.Accepts document b inst) :
    (listed value).Pairwise fun a b => StaysLax document a → StaysLax document b →
      Evaluation.Accepts document a inst → ¬ Evaluation.Accepts document b inst := by
  refine pairwise_of_forall₂ (listed_walked hwalk) h
    fun a b first second hfirst hsecond hboth ha hb haccepts hother => ?_
  have hone := hlax a first hfirst ha
  have htwo := hlax b second hsecond hb
  exact hboth hone.1 htwo.1 (hone.2 haccepts) (htwo.2 hother)

theorem itemsPass_of_walked {inside within : Json → Json → Prop} {items : List Json}
    (hwalked : WalkedFields document depth followed keywords results)
    (hinside : ∀ value result, Beneath keywords value → Walked document depth followed value result →
      ∀ part ∈ items, within result part → inside value part)
    (h : ItemsPass within results items) : ItemsPass inside keywords items := by
  intro i item hitem value hvalue
  obtain ⟨result, hresult, hwalk⟩ := exists_walked_item hwalked hvalue
  exact hinside value result (beneath_of_itemSchema? hvalue) hwalk item (List.mem_of_getElem? hitem)
    (h i item hitem result hresult)

/-- Keywords after the walk ask what they asked before. -/
theorem Respects.of_walked {up : List Json → Json → Prop} (hinst : inst.ordered = true)
    (hordered : ∀ key value, keywords.get? key = some value → value.ordered = true)
    (hwalked : WalkedFields document depth followed keywords results) (hmaps : HasClearMaps keywords)
    (hup : ∀ value result, Beneath keywords value → Walked document depth followed value result →
      ∀ part, part.ordered = true → up [result] part → up [value] part)
    (hlax : ∀ value result, Walked document depth followed value result → StaysLax document value →
      StaysLax document result ∧
        (Evaluation.Accepts document value inst → Evaluation.Accepts document result inst))
    (h : Respects document up results inst) : Respects document up keywords inst where
  asserts key value hvalue := by
    obtain ⟨result, hresult, hwalk, hdata⟩ := hwalked.exists_result hvalue
    exact holds_of_walked hwalk hdata (h.asserts key result hresult)
  any value hvalue := by
    obtain ⟨result, hresult, hwalk, -⟩ := hwalked.exists_result hvalue
    exact exists_listed_of_walked hwalk
      (fun sub hsub other hinner => hup sub other (.listed hvalue hsub) hinner inst hinst)
      (h.any result hresult)
  one value hvalue := by
    obtain ⟨result, hresult, hwalk, -⟩ := hwalked.exists_result hvalue
    obtain ⟨hupheld, hpairwise⟩ := h.one result hresult
    refine ⟨exists_listed_of_walked hwalk ?_ hupheld, pairwise_of_walked hlax hwalk hpairwise⟩
    exact fun sub hsub other hinner => hup sub other (.listed hvalue hsub) hinner inst hinst
  not sub hsub hstays haccepts := by
    obtain ⟨result, hresult, hwalk, -⟩ := hwalked.exists_result hsub
    have hless := hlax sub result hwalk hstays
    exact h.not result hresult hless.1 (hless.2 haccepts)
  yes test htest sub hsub hstays haccepts := by
    obtain ⟨first, hfirst, hwalk, -⟩ := hwalked.exists_result htest
    obtain ⟨second, hsecond, hinner, -⟩ := hwalked.exists_result hsub
    have hless := hlax test first hwalk hstays
    exact hup sub second (.value hsub) hinner inst hinst
      (h.yes first hfirst second hsecond hless.1 (hless.2 haccepts))
  no test htest sub hsub huncomposed hsteady haccepts := by
    obtain ⟨first, hfirst, hwalk, -⟩ := hwalked.exists_result htest
    obtain ⟨second, hsecond, hinner, -⟩ := hwalked.exists_result hsub
    cases hwalk.eq_of_uncomposed huncomposed
    exact hup sub second (.value hsub) hinner inst hinst
      (h.no _ hfirst second hsecond huncomposed hsteady haccepts)
  patterns members hmembers name value hmem entry hmatched := by
    obtain ⟨other, hother, hwalk⟩ := exists_walked_pattern hwalked hmaps hordered hmatched
    obtain ⟨patterns, hpatterns, hpattern, -⟩ := mem_matchingPatterns.1 hmatched
    exact hup entry.2 other.2 (.entry hpatterns hpattern) hwalk value
      (IsInside.member hinst hmembers hmem).ordered (h.patterns members hmembers name value hmem other hother)
  names members hmembers sub hsub hschema name value hmem := by
    obtain ⟨result, hresult, hwalk, -⟩ := hwalked.exists_result hsub
    exact hup sub result (.value hsub) hwalk (.string name) rfl
      (h.names members hmembers result hresult (isItemSchema_walked hwalk hschema) name value hmem)
  dependencies members hmembers entries hentries name dependency hmem hname := by
    obtain ⟨given, hgiven, hinner⟩ := exists_walked_entries hwalked hentries
      (hmaps _ (by decide) entries hentries)
    have hkeys := (Json.ordered_object.1 (hordered _ _ hentries)).1
    obtain ⟨result, hresult, hwalk, -⟩ := hinner.exists_result (Fields.get?_of_mem hkeys hmem)
    exact dependencyHolds_of_walked hwalk (hup dependency result (.entry hentries hmem) hwalk inst hinst)
      (h.dependencies members hmembers given hgiven name result (Fields.mem_of_get? hresult) hname)
  items items hitems := by
    refine itemsPass_of_walked hwalked ?_ (h.items items hitems)
    exact fun value result hbeneath hwalk part hmem =>
      hup value result hbeneath hwalk part (IsInside.item hinst hitems hmem).ordered
  contains items hitems sub hsub := by
    obtain ⟨result, hresult, hwalk, -⟩ := hwalked.exists_result hsub
    obtain ⟨item, hmem, hupheld⟩ := h.contains items hitems result hresult
    exact ⟨item, hmem,
      hup sub result (.value hsub) hwalk item (IsInside.item hinst hitems hmem).ordered hupheld⟩

end

/-! ## Layers after the walk -/

section

variable {document inst value result : Json} {depth within : Nat} {followed : List String}
  {before after : List Json}

/-- What the walk makes of keywords that are no composition. -/
theorem WalkedFields.won {before : List Json} {layer flat : Json}
    (h : WalkedFields document within followed (keywordsOf layer) (keywordsOf flat)) :
    WalkedFields document within followed (won before layer) (won before flat) where
  absent key := by
    rw [Option.eq_none_iff_forall_ne_some, Option.eq_none_iff_forall_ne_some]
    have habsent := h.absent key
    simp only [get?_won, ne_eq, get?_eq_keywordsOf] at habsent ⊢
    constructor
    · rintro hnone value ⟨hkey, hbefore, hvalue⟩
      obtain ⟨result, hresult, -⟩ := h.exists_result hvalue
      exact hnone result ⟨hkey, hbefore, hresult⟩
    · rintro hnone result ⟨hkey, hbefore, hresult⟩
      obtain ⟨value, hvalue, -⟩ := h.value hresult
      exact hnone value ⟨hkey, hbefore, hvalue⟩
  origin key result hresult := by
    obtain ⟨hkey, hbefore, hheld⟩ := get?_won.1 hresult
    obtain ⟨value, hvalue, hwalk⟩ := h.origin key result ((get?_eq_keywordsOf _ _).symm.trans hheld)
    exact ⟨value, get?_won.2 ⟨hkey, hbefore, (get?_eq_keywordsOf _ _).trans hvalue⟩, hwalk⟩

theorem HasClearMaps.won {layer : Json} (h : HasClearMaps (keywordsOf layer)) :
    HasClearMaps (ApiContract.won before layer) := by
  intro key hkey entries hentries
  obtain ⟨-, -, hheld⟩ := get?_won.1 hentries
  exact h key hkey entries ((get?_eq_keywordsOf _ _).symm.trans hheld)

theorem HasClearMaps.properties {keywords : Fields} (h : HasClearMaps keywords) (fragments : List Json) :
    declaredProperty? keywords "allOf" ≠ some (.array fragments) := by
  intro hdeclared
  obtain ⟨properties, hproperties, hheld⟩ := declaredProperty?_eq_some.1 hdeclared
  exact h _ (by decide) properties hproperties fragments hheld

theorem IsTyping.uncomposed {typing : Json} (h : IsTyping typing) : Uncomposed typing := by
  obtain ⟨name, rfl⟩ | ⟨names, rfl⟩ := h
  · exact .other rfl rfl
  · refine .array fun item hitem => ?_
    obtain ⟨name, -, rfl⟩ := List.mem_map.1 hitem
    exact .other rfl rfl

theorem IsApart.walked (h : IsApart value) (hwalk : Walked document within followed value result) :
    IsApart result := by
  rcases h with hobject | hreference
  · have hkind := hwalk.sameKind
    cases hkind with
    | refl => exact .inl hobject
    | array => exact .inl rfl
    | object => cases hobject
  · cases hwalk with
    | kept => exact .inr hreference
    | @flattened inside _ _ _ hflat =>
      cases inside with
      | zero => cases hflat
      | succ inside =>
        cases value with
        | object fields =>
          rw [flattenNode?_object, Option.bind_eq_some_iff] at hflat
          obtain ⟨keywords, hkeywords, hflat⟩ := hflat
          obtain ⟨results, hresults, rfl⟩ := Option.map_eq_some_iff.1 hflat
          obtain ⟨reference, hheld⟩ := Option.ne_none_iff_exists'.1 hreference
          obtain ⟨kept, hkept, -⟩ :=
            exists_retained_composedFields? hkeywords (fun _ _ => by decide) hheld
          obtain ⟨last, hlast, -⟩ :=
            (walkedFields_of_mapValues? (Nat.le_refl inside) hresults).exists_result hkept
          exact .inr (Option.ne_none_iff_exists'.2 ⟨last, hlast⟩)
        | _ => exact absurd rfl hreference

theorem Stackable.walked {typing : Json} (htyping : IsTyping typing) (h : Stackable typing value)
    (hwalk : Walked document within followed value result) : Stackable typing result := by
  obtain ⟨fields, rfl⟩ := exists_object_of_isObject h.object
  have hall : ∀ fragments, Fields.get? "allOf" fields ≠ some (.array fragments) := by
    intro fragments hfragments
    cases h.fragments.symm.trans hfragments
  obtain ⟨results, rfl, hfields⟩ := hwalk.object hall
  refine ⟨⟨fun last hlast => ?_, fun last hlast => ?_, fun last hlast => ?_⟩, rfl,
    (hfields.absent _).2 h.reference, (hfields.absent _).2 h.fragments⟩
  · obtain ⟨held, hheld, hinner⟩ := hfields.value hlast
    cases h.typing held hheld
    exact hinner.eq_of_uncomposed htyping.uncomposed
  · obtain ⟨held, hheld, hinner⟩ := hfields.value hlast
    obtain ⟨names, rfl⟩ := h.required held hheld
    obtain ⟨given, rfl, -⟩ := hinner.array
    exact ⟨given, rfl⟩
  · obtain ⟨held, hheld, hinner⟩ := hfields.value hlast
    obtain ⟨given, rfl⟩ := h.properties held hheld
    have hkind := hinner.sameKind
    cases hkind <;> exact ⟨_, rfl⟩

theorem Ranked.walked (h : Ranked (before ++ [value] ++ after))
    (hwalk : Walked document within followed value result) : Ranked (before ++ [result] ++ after) := by
  cases h with
  | stacked typing htyping h =>
    refine .stacked typing htyping fun schema hschema => ?_
    rw [List.append_assoc, List.dropLast_append_of_ne_nil (by simp)] at h hschema
    rcases List.mem_append.1 hschema with hbefore | hrest
    · exact h schema (List.mem_append_left _ hbefore)
    · cases after with
      | nil => cases hrest
      | cons head tail =>
        have hsplit : ∀ first, ([first] ++ head :: tail).dropLast = first :: (head :: tail).dropLast :=
          fun _ => rfl
        rw [hsplit] at h hrest
        rcases List.mem_cons.1 hrest with rfl | htail
        · exact (h value (by simp)).walked htyping hwalk
        · exact h schema (List.mem_append_right _ (List.mem_cons_of_mem _ htail))
  | apart hschemas hone =>
    rename_i first second
    cases before with
    | nil =>
      cases hschemas
      exact .apart rfl (hone.imp_left fun h => h.walked hwalk)
    | cons head rest =>
      cases rest with
      | nil =>
        cases hschemas
        exact .apart rfl (hone.imp_right fun h => h.walked hwalk)
      | cons next rest => simp at hschemas

/-- What flattened values have to keep, as far as a depth shows. -/
def Reflects (document : Json) (within : Nat) (followed : List String) (depth : Nat) : Prop :=
  ∀ value result, value.ordered = true → Walked document within followed value result →
    StandsFor document depth [result] [value]

/-- A schema that flattening does not make stricter stays such a schema on the walk. -/
theorem StaysLax.walked (hdocument : Followable document) (hinst : inst.ordered = true)
    (h : StaysLax document value) (hwalk : Walked document within followed value result) :
    StaysLax document result ∧
      (Evaluation.Accepts document value inst → Evaluation.Accepts document result inst) := by
  rcases h with hmergeable | ⟨huncomposed, hsteady⟩
  · have hless := laxer_of_walked (fun inside _ => (laxer_flattening hdocument inside).1 followed)
      hmergeable hwalk
    exact ⟨.inl hless.mergeable, hless.accepts inst hinst⟩
  · cases hwalk.eq_of_uncomposed huncomposed
    exact ⟨.inr ⟨huncomposed, hsteady⟩, id⟩

theorem unclaimed_walked (hmaps : HasClearMaps (keywordsOf value))
    (hwalked : WalkedFields document within followed (keywordsOf value) (keywordsOf result)) {name : String}
    (h : Unclaimed [value] name) : Unclaimed [result] name := by
  have hnone := List.forall_mem_singleton.1 h
  rw [propertySchemas, List.append_eq_nil_iff, Option.toList_eq_nil_iff, List.map_eq_nil_iff] at hnone
  refine List.forall_mem_singleton.2 ?_
  rw [propertySchemas, (declaredProperty?_walked hwalked hmaps.properties name).1.2 hnone.1,
    matchingPatterns_eq_nil_of_walked hwalked hmaps hnone.2]
  rfl

/-- A layer shows in what the walk makes of it. -/
theorem showsIn_walked (hdocument : Followable document) (hinst : inst.ordered = true)
    (hvalue : value.ordered = true) (hmaps : HasClearMaps (keywordsOf value))
    (hwalked : WalkedFields document within followed (keywordsOf value) (keywordsOf result))
    (hreflects : Reflects document within followed depth) :
    ShowsIn document (UpheldTo document depth) inst [] value [] [] result [] where
  keywords first hrespects := by
    have hordered : ∀ key held, (won (first ++ []) value).get? key = some held → held.ordered = true :=
      fun key held hheld => Json.ordered_of_get? hvalue (get?_won.1 hheld).2.2
    refine hrespects.of_walked hinst hordered hwalked.won hmaps.won ?up ?lax
    case up =>
      intro held flat hbeneath hwalk part hpart
      exact (hreflects held flat (hbeneath.ordered_of_get? hordered) hwalk).upheldTo hpart
    case lax => exact fun _ _ hwalk hstays => hstays.walked hdocument hinst hwalk
  joined key _ hholds held hheld := by
    rw [get?_eq_keywordsOf] at hheld
    obtain ⟨flat, hflat, hwalk, hdata⟩ := hwalked.exists_result hheld
    exact holds_of_walked hwalk hdata (hholds flat ((get?_eq_keywordsOf _ _).trans hflat))
  content _ _ := by
    refine ⟨List.forall_mem_nil _, List.forall_mem_nil _, fun key _ hnone => ?absent,
      fun hcontent key held hheld => ?fine⟩
    case absent => rwa [get?_eq_keywordsOf, hwalked.absent, ← get?_eq_keywordsOf] at hnone
    case fine =>
      simp only [get?_eq_keywordsOf] at hcontent hheld
      exact contentFailures_of_walked hwalked hcontent key held hheld
  further _ sub hsub hschema _ := by
    rw [get?_eq_keywordsOf] at hsub
    obtain ⟨flat, hflat, hwalk, -⟩ := hwalked.exists_result hsub
    have hordered := Json.ordered_of_get? hvalue ((get?_eq_keywordsOf _ _).trans hsub)
    refine ⟨List.forall_mem_nil _, flat, (get?_eq_keywordsOf _ _).trans hflat,
      isItemSchema_walked hwalk hschema, fun hfalse => ⟨(hwalk.bool_iff false).1 hfalse, rfl⟩, ?_⟩
    exact fun part hpart => (hreflects sub flat hordered hwalk).upheldTo hpart

/-- A layer after the walk replaces it. -/
theorem replaces_walked (hdocument : Followable document) (hinst : inst.ordered = true)
    (hvalue : value.ordered = true) (hmaps : HasClearMaps (keywordsOf value))
    (hwalked : WalkedFields document within followed (keywordsOf value) (keywordsOf result))
    (hfalse : value = .bool false → result = .bool false)
    (hreflects : Reflects document within followed depth) :
    Replaces document (UpheldTo document depth) inst [result] [value] where
  nonempty := List.cons_ne_nil _ _
  possible hmem := List.mem_singleton.2 (hfalse (List.mem_singleton.1 hmem).symm).symm
  absent key _ hnone := by
    refine List.forall_mem_singleton.2 ?_
    rw [get?_eq_keywordsOf, hwalked.absent, ← get?_eq_keywordsOf]
    exact hnone value (List.mem_singleton_self _)
  unclaimed _ := unclaimed_walked hmaps hwalked
  properties name before after part hpart hrank hall := by
    obtain ⟨hnone, hsome⟩ := declaredProperty?_walked hwalked hmaps.properties name
    rw [declaredBy_singleton] at hrank hall ⊢
    cases hresult : declaredProperty? (keywordsOf result) name with
    | none =>
      rw [hresult] at hall
      rw [hnone.1 hresult] at hrank ⊢
      exact hall hrank
    | some flat =>
      obtain ⟨held, hheld, hwalk⟩ := hsome flat hresult
      rw [hresult] at hall
      rw [hheld] at hrank ⊢
      have hordered : held.ordered = true := by
        obtain ⟨properties, hproperties, hmem⟩ := declaredProperty?_eq_some.1 hheld
        exact Json.ordered_of_get? (Json.ordered_of_get? hvalue ((get?_eq_keywordsOf _ _).trans hproperties))
          hmem
      exact hreflects held flat hordered hwalk before after part hpart (hall (hrank.walked hwalk))
  shows before layer after hlayers := by
    obtain ⟨rfl, rfl, rfl⟩ := split_singleton hlayers
    exact ⟨[], result, [], rfl, showsIn_walked hdocument hinst hvalue hmaps hwalked hreflects⟩

end

/-! ## Schemas without references and fragments -/

/-- The keywords of a schema that is neither a reference nor a composition. -/
structure IsFlat (keywords : Fields) : Prop where
  ordered : (Json.object keywords).ordered = true
  reference : (Json.object keywords).reference? = none
  fragments : keywords.get? "allOf" = none

section

variable {document : Json} {depth : Nat} {followed : List String} {fragments : List Json}
  {left right both keywords results target final : Fields}

theorem reference?_of_walkedFields (h : WalkedFields document depth followed keywords results) :
    (Json.object results).reference? = (Json.object keywords).reference? := by
  rw [Json.reference?, Json.reference?, Json.getString?, Json.getString?, Json.get?, Json.get?]
  cases hvalue : keywords.get? "$ref" with
  | none => rw [(h.absent _).2 hvalue]
  | some value =>
    obtain ⟨result, hresult, hwalk, -⟩ := h.exists_result hvalue
    rw [hresult]
    exact string?_walked hwalk

theorem IsFlat.merged (hleft : IsFlat left) (hright : IsFlat right)
    (h : mergeFields left right = some both) : IsFlat both := by
  have hjoins := joins_mergeFields hright.ordered h
  refine ⟨inherited_ordered.merges.1 _ _ hleft.ordered hright.ordered _ h, ?_,
    hjoins.absent _ (by decide) hleft.fragments hright.fragments⟩
  have hown := hleft.reference
  have hother := hright.reference
  rw [Json.reference?, Json.getString?, Json.get?] at hown hother ⊢
  rw [hjoins.get?_eq (by decide)]
  cases hvalue : left.get? "$ref" with
  | none => rwa [Option.none_or]
  | some value => rwa [Option.some_or, ← hvalue]

/-- The first of some fragments that are merged one after the other. -/
theorem exists_merged_of_cons {fragment : Json} {rest : List Json}
    (h : (fragment :: rest).foldlM (mergeFragment? document depth followed) (some target) =
      some (some final)) :
    ∃ held flat : Fields, resolveFragment? document depth followed fragment = some (some held) ∧
      mergeFields target held = some flat ∧
      rest.foldlM (mergeFragment? document depth followed) (some flat) = some (some final) := by
  rw [List.foldlM_cons] at h
  obtain ⟨next, hnext, hrest⟩ := Option.bind_eq_some_iff.1 h
  obtain ⟨resolved, hresolved, rfl⟩ := Option.map_eq_some_iff.1 hnext
  cases hflat : resolved.bind (mergeFields target) with
  | none =>
    rw [hflat, foldlM_mergeFragment?_none] at hrest
    cases hrest
  | some flat =>
    rw [hflat] at hrest
    obtain ⟨held, rfl, hmerged⟩ := Option.bind_eq_some_iff.1 hflat
    exact ⟨held, flat, hresolved, hmerged, hrest⟩

theorem isFlat_mergeFragments? (ihfragment : ∀ fragment held, fragment.ordered = true →
      resolveFragment? document depth followed fragment = some (some held) → IsFlat held)
    (htarget : IsFlat target) (hordered : ∀ fragment ∈ fragments, fragment.ordered = true)
    (h : fragments.foldlM (mergeFragment? document depth followed) (some target) = some (some final)) :
    IsFlat final := by
  induction fragments generalizing target with
  | nil =>
    cases h
    exact htarget
  | cons fragment rest ih =>
    rw [List.forall_mem_cons] at hordered
    obtain ⟨held, flat, hheld, hflat, hrest⟩ := exists_merged_of_cons h
    exact ih (htarget.merged (ihfragment fragment held hordered.1 hheld) hflat) hordered.2 hrest

theorem isFlat_erase (hordered : (Json.object keywords).ordered = true)
    (href : (Json.object keywords).reference? = none) : IsFlat (keywords.erase "allOf") := by
  have hlayer := isLayer_withoutFragments href
  exact ⟨ordered_erase hordered "allOf", hlayer.reference, hlayer.fragments⟩

theorem reference?_composedFields? (ihfragment : ∀ fragment held, fragment.ordered = true →
      resolveFragment? document depth followed fragment = some (some held) → IsFlat held)
    (hordered : (Json.object keywords).ordered = true) (href : (Json.object keywords).reference? = none)
    (h : composedFields? document depth followed keywords = some results) :
    (Json.object results).reference? = none := by
  unfold composedFields? at h
  split at h
  · rename_i fragments hall
    obtain ⟨flat, hflat, rfl⟩ := Option.map_eq_some_iff.1 h
    cases flat with
    | none => exact href
    | some merged =>
      have hfragments := Json.ordered_array.1 (Json.ordered_of_get? hordered hall)
      exact (isFlat_mergeFragments? ihfragment (isFlat_erase hordered href) hfragments hflat).reference
  · cases h
    exact href

/-- Flattening makes no reference of a schema that is none, and follows those that fragments are. -/
theorem isFlat_flattening (hdocument : document.ordered = true) (depth : Nat) :
    (∀ followed node flat, node.ordered = true → node.reference? = none →
      flattenNode? document depth followed node = some flat → flat.reference? = none) ∧
    (∀ followed fragment keywords, fragment.ordered = true →
      resolveFragment? document depth followed fragment = some (some keywords) → IsFlat keywords) := by
  induction depth with
  | zero =>
    refine ⟨fun followed node flat _ _ h => ?_, fun followed fragment keywords _ h => ?_⟩
    · cases h
    · cases h
  | succ depth ih =>
    obtain ⟨ihnode, ihfragment⟩ := ih
    refine ⟨fun followed node flat hordered href hflat => ?_,
      fun followed fragment keywords hordered h => ?_⟩
    · cases node with
      | object fields =>
        rw [flattenNode?_object, Option.bind_eq_some_iff] at hflat
        obtain ⟨keywords, hkeywords, hflat⟩ := hflat
        obtain ⟨results, hresults, rfl⟩ := Option.map_eq_some_iff.1 hflat
        rw [reference?_of_walkedFields (walkedFields_of_mapValues? (Nat.le_refl depth) hresults)]
        exact reference?_composedFields? (ihfragment followed) hordered href hkeywords
      | _ =>
        have hkind := sameKind_of_flattenNode? hflat
        cases hkind <;> rfl
    · unfold resolveFragment? at h
      split at h
      · split at h
        · cases h
        · split at h
          · rename_i target htarget
            exact ihfragment _ target keywords (Json.ordered_of_resolve? hdocument htarget) h
          · cases h
      · rename_i href
        obtain ⟨flat, hflat, hkeywords⟩ := Option.map_eq_some_iff.1 h
        have hnone := ihnode followed fragment flat hordered href hflat
        have hflatOrdered := ordered_of_flattenNode? hdocument hordered hflat
        unfold flatFragment? at hkeywords
        split at hkeywords
        · split at hkeywords
          · cases hkeywords
          · rename_i fields hall
            cases hkeywords
            exact ⟨hflatOrdered, hnone, Fields.hasKey_eq_false_iff.1 (Bool.not_eq_true _ ▸ hall)⟩
        · cases hkeywords

/-- A reference stays one, whatever is merged beside it. -/
theorem reference?_flattenNode? {node flat : Json} {reference : String}
    (href : node.reference? = some reference)
    (h : flattenNode? document depth followed node = some flat) : flat.reference? = some reference := by
  cases depth with
  | zero => cases h
  | succ depth =>
    cases node with
    | object fields =>
      have hvalue := get?_of_reference? href
      rw [flattenNode?_object, Option.bind_eq_some_iff] at h
      obtain ⟨keywords, hkeywords, hflat⟩ := h
      obtain ⟨results, hresults, rfl⟩ := Option.map_eq_some_iff.1 hflat
      have hkept : keywords.get? "$ref" = some (.string reference) := by
        unfold composedFields? at hkeywords
        split at hkeywords
        · obtain ⟨flat, hmerged, rfl⟩ := Option.map_eq_some_iff.1 hkeywords
          cases flat with
          | none => exact hvalue
          | some final =>
            refine mergeFragments?_induction
              (p := fun target => Fields.get? "$ref" target = some (.string reference)) ?_
              (fun target fragment merged htarget hmerged => ?_) hmerged
            · rw [Fields.get?_erase, if_neg (by decide)]
              exact hvalue
            · exact get?_mergeFields_of_get? (by decide) (by decide) hmerged htarget
        · cases hkeywords
          exact hvalue
      rw [reference?_of_walkedFields (walkedFields_of_mapValues? (Nat.le_refl depth) hresults),
        Json.reference?, Json.getString?, Json.get?, hkept]
      rfl
    | _ => cases href

end

/-! ## The walk -/

section

variable {document : Json} {depth within : Nat} {followed : List String} {fragments : List Json}
  {keywords results target final : Fields}

/-- A schema with fragments merged into it stands for them on top of each other. -/
theorem standsFor_mergeFragments? (ihfragment : ∀ fragment held, fragment.ordered = true →
      resolveFragment? document within followed fragment = some (some held) →
        IsFlat held ∧ StandsFor document (depth + 1) [.object held] [fragment])
    (htarget : IsFlat target) (hordered : ∀ fragment ∈ fragments, fragment.ordered = true)
    (h : fragments.foldlM (mergeFragment? document within followed) (some target) = some (some final)) :
    StandsFor document (depth + 1) [.object final] (.object target :: fragments) := by
  induction fragments generalizing target with
  | nil =>
    cases h
    exact .refl _
  | cons fragment rest ih =>
    rw [List.forall_mem_cons] at hordered
    obtain ⟨held, flat, hheld, hflat, hrest⟩ := exists_merged_of_cons h
    obtain ⟨hfragment, hstands⟩ := ihfragment fragment held hordered.1 hheld
    have hnext := htarget.merged hfragment hflat
    have hboth := standsFor_mergeFields htarget.ordered hfragment.ordered htarget.fragments
      htarget.reference hfragment.reference hnext.reference (upheldTo_mergeSchemas document depth) hflat
    have htail := (StandsFor.refl [Json.object target]).append (hstands.append (.refl rest))
    exact (ih hnext hordered.2 hrest).trans ((hboth.append (.refl rest)).trans htail)

theorem conjuncts_walked (hwalked : WalkedFields document within followed keywords results) :
    List.Forall₂ (Walked document within followed) (conjuncts keywords) (conjuncts results) := by
  unfold conjuncts
  cases hvalue : keywords.get? "allOf" with
  | none =>
    rw [(hwalked.absent _).2 hvalue]
    exact .nil
  | some value =>
    obtain ⟨result, hresult, hwalk, -⟩ := hwalked.exists_result hvalue
    rw [hresult]
    exact listed_walked hwalk

theorem walkedFields_erase (h : WalkedFields document within followed keywords results) (key : String) :
    WalkedFields document within followed (keywords.erase key) (results.erase key) where
  absent other := by
    rw [Fields.get?_erase, Fields.get?_erase]
    split
    · exact Iff.rfl
    · exact h.absent other
  origin other result hresult := by
    rw [Fields.get?_erase] at hresult ⊢
    split at hresult
    · cases hresult
    · rename_i hne
      rw [if_neg hne]
      exact h.origin other result hresult

/-- A schema whose parts have been walked stands for the schema. -/
theorem standsFor_walkedFields (hdocument : Followable document)
    (hreflects : Reflects document within followed depth)
    (hfragments : Reflects document within followed (depth + 1))
    (hordered : (Json.object keywords).ordered = true) (href : (Json.object keywords).reference? = none)
    (hwalked : WalkedFields document within followed keywords results) :
    StandsFor document (depth + 1) [.object results] [.object keywords] := by
  have hflat : (Json.object results).reference? = none := (reference?_of_walkedFields hwalked).trans href
  have hclear : HasClearMaps (keywords.erase "allOf") → HasClearMaps (results.erase "allOf") := by
    intro hmaps key hkey entries hentries fragments hheld
    obtain ⟨value, hvalue, hwalk⟩ := (walkedFields_erase hwalked "allOf").value hentries
    obtain ⟨given, rfl⟩ := hwalk.sameKind.exists_object
    obtain ⟨_, heq, hinner⟩ := hwalk.object (hmaps key hkey given hvalue)
    cases heq
    obtain ⟨last, hlast, hlist⟩ := hinner.value hheld
    obtain ⟨items, rfl⟩ := hlist.sameKind.exists_array
    exact hmaps key hkey given hvalue items hlast
  have hown : StandsFor document (depth + 1) [.object (results.erase "allOf")]
      [.object (keywords.erase "allOf")] := by
    refine standsFor_of_layers (List.forall_mem_singleton.2 (isLayer_withoutFragments hflat))
      (List.forall_mem_singleton.2 (isLayer_withoutFragments href)) (fun hmaps => ?_)
      fun hmaps before after inst hinst => ?_
    · exact List.forall_mem_singleton.2 (hclear (hmaps _ (List.mem_singleton_self _)))
    · exact (replaces_walked hdocument hinst (ordered_erase hordered "allOf")
        (hmaps _ (List.mem_singleton_self _)) (walkedFields_erase hwalked "allOf") nofun
        hreflects).upholds hinst
  have hconjuncts : StandsFor document (depth + 1) (conjuncts results) (conjuncts keywords) :=
    standsFor_of_forall₂ (ordered_conjuncts hordered)
      ((conjuncts_walked hwalked).imp fun value result hwalk hvalue => hfragments value result hvalue hwalk)
  exact (standsFor_parts hflat).trans ((hown.append hconjuncts).trans (standsFor_composition href))

/-- A composition with its fragments merged stands for the composition. -/
theorem standsFor_composedFields? (ihfragment : ∀ fragment held, fragment.ordered = true →
      resolveFragment? document within followed fragment = some (some held) →
        IsFlat held ∧ StandsFor document (depth + 1) [.object held] [fragment])
    (hordered : (Json.object keywords).ordered = true) (href : (Json.object keywords).reference? = none)
    (h : composedFields? document within followed keywords = some results) :
    StandsFor document (depth + 1) [.object results] [.object keywords] := by
  unfold composedFields? at h
  split at h
  · rename_i fragments hall
    obtain ⟨flat, hflat, rfl⟩ := Option.map_eq_some_iff.1 h
    cases flat with
    | none => exact .refl _
    | some final =>
      have hfragments := Json.ordered_array.1 (Json.ordered_of_get? hordered hall)
      have hmerged := standsFor_mergeFragments? ihfragment (isFlat_erase hordered href) hfragments hflat
      have hconjuncts : conjuncts keywords = fragments := by
        rw [conjuncts, hall]
        rfl
      have hwhole : StandsFor document (depth + 1)
          (.object (keywords.erase "allOf") :: conjuncts keywords) [.object keywords] :=
        standsFor_composition href
      rw [hconjuncts] at hwhole
      exact hmerged.trans hwhole
  · cases h
    exact .refl _

/-- Flattened schemas stand for the schemas that they come of, as far as a depth shows. -/
def FlatStands (document : Json) (depth within : Nat) : Prop :=
  (∀ followed node flat, node.ordered = true → flattenNode? document within followed node = some flat →
    StandsFor document depth [flat] [node]) ∧
  ∀ followed fragment keywords, fragment.ordered = true →
    resolveFragment? document within followed fragment = some (some keywords) →
      StandsFor document depth [.object keywords] [fragment]

theorem reflects_of_flatStands (h : ∀ inside ≤ within, FlatStands document depth inside) :
    Reflects document within followed depth := by
  intro value result hvalue hwalk
  cases hwalk with
  | kept => exact .refl _
  | flattened hinside hflat => exact (h _ hinside).1 followed value result hvalue hflat

theorem standsFor_flattenNode? (hdocument : Followable document)
    (hparts : ∀ inside, FlatStands document depth inside)
    (ih : ∀ inside ≤ within, FlatStands document (depth + 1) inside) {node flat : Json}
    (hordered : node.ordered = true)
    (h : flattenNode? document (within + 1) followed node = some flat) :
    StandsFor document (depth + 1) [flat] [node] := by
  cases href : node.reference? with
  | some reference => exact standsFor_same_reference href (reference?_flattenNode? href h)
  | none =>
    cases node with
    | object fields =>
      rw [flattenNode?_object, Option.bind_eq_some_iff] at h
      obtain ⟨keywords, hkeywords, hflat⟩ := h
      obtain ⟨results, hresults, rfl⟩ := Option.map_eq_some_iff.1 hflat
      have hflatten := isFlat_flattening hdocument.ordered within
      have hfragment : ∀ fragment held, fragment.ordered = true →
          resolveFragment? document within followed fragment = some (some held) →
            IsFlat held ∧ StandsFor document (depth + 1) [.object held] [fragment] :=
        fun fragment held hfragment hheld => ⟨hflatten.2 followed fragment held hfragment hheld,
          (ih within (Nat.le_refl within)).2 followed fragment held hfragment hheld⟩
      have hcomposed := standsFor_composedFields? hfragment hordered href hkeywords
      have hnone := reference?_composedFields? (hflatten.2 followed) hordered href hkeywords
      have hkept := ordered_of_composedFields? hdocument.ordered hordered hkeywords
      have hwalked := walkedFields_of_mapValues? (Nat.le_refl within) hresults
      exact (standsFor_walkedFields hdocument (reflects_of_flatStands fun inside _ => hparts inside)
        (reflects_of_flatStands ih) hkept hnone hwalked).trans hcomposed
    | array items =>
      obtain ⟨results, -, rfl⟩ := Option.map_eq_some_iff.1 h
      have hlayer : ∀ items : List Json, ∀ schema ∈ [Json.array items], IsLayer schema :=
        fun _ => List.forall_mem_singleton.2 ⟨rfl, rfl⟩
      refine standsFor_of_layers (hlayer results) (hlayer items) (fun _ => ?_)
        fun _ before after inst hinst => ?_
      · exact List.forall_mem_singleton.2 nofun
      · have hreflects : Reflects document within followed depth :=
          reflects_of_flatStands fun inside _ => hparts inside
        have hnothing : WalkedFields document within followed [] [] := ⟨fun _ => Iff.rfl, nofun⟩
        have hreplaces : Replaces document (UpheldTo document depth) inst [.array results]
            [.array items] := replaces_walked hdocument hinst hordered nofun hnothing nofun hreflects
        exact hreplaces.upholds hinst
    | _ =>
      cases h
      exact .refl _

theorem standsFor_resolveFragment? (hdocument : Followable document)
    (ih : ∀ inside ≤ within, FlatStands document depth inside) {fragment : Json}
    (hordered : fragment.ordered = true)
    (h : resolveFragment? document (within + 1) followed fragment = some (some keywords)) :
    StandsFor document depth [.object keywords] [fragment] := by
  have hsmaller := ih within (Nat.le_refl within)
  unfold resolveFragment? at h
  split at h
  · rename_i reference href
    split at h
    · cases h
    · split at h
      · rename_i target htarget
        have htargetOrdered := Json.ordered_of_resolve? hdocument.ordered htarget
        exact (hsmaller.2 _ target keywords htargetOrdered h).trans (standsFor_reference href htarget)
      · cases h
  · obtain ⟨flat, hflat, hkeywords⟩ := Option.map_eq_some_iff.1 h
    unfold flatFragment? at hkeywords
    split at hkeywords
    · split at hkeywords
      · cases hkeywords
      · cases hkeywords
        exact hsmaller.1 followed fragment _ hordered hflat
    · cases hkeywords

/-- A flattened schema stands for the schema that it comes of, however deep both go. -/
theorem flatStands (hdocument : Followable document) (depth within : Nat) :
    FlatStands document depth within := by
  induction depth generalizing within with
  | zero => exact ⟨fun _ _ _ _ _ _ _ _ _ _ => trivial, fun _ _ _ _ _ _ _ _ _ _ => trivial⟩
  | succ depth ihdepth =>
    induction within using Nat.strongRecOn with
    | ind within ih =>
      cases within with
      | zero =>
        refine ⟨fun followed node flat _ h => ?_, fun followed fragment keywords _ h => ?_⟩
        · cases h
        · cases h
      | succ within =>
        have hsmaller : ∀ inside ≤ within, FlatStands document (depth + 1) inside :=
          fun inside hinside => ih inside (Nat.lt_succ_of_le hinside)
        exact ⟨fun followed node flat => standsFor_flattenNode? hdocument ihdepth hsmaller,
          fun followed fragment keywords => standsFor_resolveFragment? hdocument hsmaller⟩

theorem standsFor_walked (hdocument : Followable document) {value result : Json}
    (hvalue : value.ordered = true) (h : Walked document within followed value result) :
    StandsFor document depth [result] [value] :=
  reflects_of_flatStands (fun inside _ => flatStands hdocument depth inside) value result hvalue h

end

end ApiContract
