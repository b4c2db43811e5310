import ApiContract.Proofs.Preparation.Retaining
import ApiContract.Proofs.Preparation.Standing

/-! # Merged schemas uphold their parts

Whoever upholds a merged schema upholds the schemas that it is merged of, on top of each other, whatever
else is upheld before and after them.

* `get?_mergeFields`, `Joins`: what becomes of each keyword when schemas are merged.
* `Joins.shows_left`, `Joins.shows_right`: both schemas show in the merged one.
* `Ranked.merged`: schemas of one property stay in their order.
* `standsFor_mergeFields`, `upheldTo_mergeSchemas`: merged schemas stand for those they are merged of. -/

set_option autoImplicit false

namespace ApiContract

/-! ## Merged keywords -/

theorem same_string {value : Json} {text : String} : value.same (.string text) = true ↔
    value = .string text := by
  cases value <;> simp [Json.same]

theorem same_bool {value : Json} {flag : Bool} : value.same (.bool flag) = true ↔ value = .bool flag := by
  cases value <;> simp [Json.same]

theorem typeNames_of_same {value other : Json} (h : value.same other = true) :
    Assertion.typeNames value = Assertion.typeNames other := by
  have hstring : ∀ {one two : Json}, one.same two = true → one.string? = two.string? := by
    intro one two hsame
    cases one <;> cases two <;> simp_all [Json.same, Json.string?]
  have hitems : ∀ {items others : List Json}, Json.sameItems items others = true →
      items.filterMap Json.string? = others.filterMap Json.string? := by
    intro items
    induction items with
    | nil =>
      intro others hsame
      cases others with
      | nil => rfl
      | cons => cases hsame
    | cons item rest ih =>
      intro others hsame
      cases others with
      | nil => cases hsame
      | cons other last =>
        rw [Json.sameItems, Bool.and_eq_true] at hsame
        rw [List.filterMap_cons, List.filterMap_cons, hstring hsame.1, ih hsame.2]
  cases value with
  | array items =>
    cases other with
    | array others => exact hitems h
    | _ => cases h
  | _ => cases other <;> simp_all [Json.same, Assertion.typeNames]

theorem string_mem_mergeRequired {names more : List Json} {name : String}
    (h : .string name ∈ names ∨ .string name ∈ more) : .string name ∈ mergeRequired names more := by
  unfold mergeRequired
  induction more generalizing names with
  | nil => exact h.elim id nofun
  | cons first rest ih =>
    rw [List.foldl_cons]
    refine ih ?_
    rcases h with hold | hnew
    · split
      · exact .inl hold
      · exact .inl (List.mem_append_left _ hold)
    · rcases List.mem_cons.1 hnew with rfl | hrest
      · split
        · rename_i hamong
          obtain ⟨item, hitem, hsame⟩ := List.any_eq_true.1 hamong
          exact .inl (same_string.1 hsame ▸ hitem)
        · exact .inl (List.mem_append_right _ (List.mem_singleton_self _))
      · exact .inr hrest

section

variable {target fragment merged : Fields} {key : String}

/-- Each keyword of a fragment is merged once, into what the target has of it. -/
theorem get?_mergeFields (hfragment : fragment.Ordered) (hkey : key ≠ "properties")
    (h : mergeFields target fragment = some merged) :
    (fragment.get? key = none → merged.get? key = target.get? key) ∧
    ∀ value, fragment.get? key = some value → ∃ given next : Fields,
      given.get? key = target.get? key ∧ mergeKeyword given key value = some next ∧
        merged.get? key = next.get? key := by
  induction fragment generalizing target with
  | nil =>
    rw [mergeFields] at h
    cases h
    refine ⟨fun _ => rfl, fun value hvalue => ?_⟩
    cases hvalue
  | cons field rest ih =>
    obtain ⟨name, held⟩ := field
    obtain ⟨-, hrest⟩ := Fields.ordered_cons.1 hfragment
    by_cases hname : name = "properties"
    · subst hname
      obtain ⟨properties, more, -, -, hmerged⟩ := exists_of_mergeFields_properties h
      have hsame := ih hrest hmerged
      rw [Fields.get?_insert, if_neg hkey.symm] at hsame
      rwa [Fields.get?_cons, if_neg hkey.symm]
    · rw [mergeFields_keyword hname, Option.bind_eq_some_iff] at h
      obtain ⟨next, hnext, hmerged⟩ := h
      have hlater := ih hrest hmerged
      by_cases hsame : name = key
      · subst hsame
        have hnone := Fields.get?_rest_eq_none hfragment
        rw [Fields.get?_cons, if_pos rfl]
        refine ⟨fun habsent => absurd habsent (Option.some_ne_none held), fun value hvalue => ?_⟩
        cases hvalue
        exact ⟨target, next, rfl, hnext, hlater.1 hnone⟩
      · rw [get?_mergeKeyword_of_ne (Ne.symm hsame) hnext] at hlater
        rwa [Fields.get?_cons, if_neg hsame]

/-- What becomes of the keywords of two schemas, the first of which wins. -/
structure Joins (target fragment merged : Fields) : Prop where
  own : ∀ key ∉ ["required", "properties"], ∀ value, target.get? key = some value →
    merged.get? key = some value
  added : ∀ key ∉ ["required", "properties", "discriminator"], ∀ value, target.get? key = none →
    fragment.get? key = some value → (key = "additionalProperties" → value ≠ .bool false) →
      merged.get? key = some value
  absent : ∀ key, key ≠ "properties" → target.get? key = none → fragment.get? key = none →
    merged.get? key = none
  types : ∀ value other, target.get? "type" = some value → fragment.get? "type" = some other →
    value.same other = true
  required : ∀ inst, (∀ names, merged.get? "required" = some names →
      Assertion.Holds "required" names inst) →
    (∀ names, target.get? "required" = some names → Assertion.Holds "required" names inst) ∧
      ∀ names, fragment.get? "required" = some names → Assertion.Holds "required" names inst
  properties : ∀ name, declaredProperty? merged name =
    bothMerged? (declaredProperty? target name) (declaredProperty? fragment name)

theorem holds_of_mergeRequired {names more : List Json} {inst : Json}
    (h : Assertion.Holds "required" (.array (mergeRequired names more)) inst) :
    Assertion.Holds "required" (.array names) inst ∧ Assertion.Holds "required" (.array more) inst := by
  cases inst with
  | object fields =>
    exact ⟨fun name hname => h name (string_mem_mergeRequired (.inl hname)),
      fun name hname => h name (string_mem_mergeRequired (.inr hname))⟩
  | _ => exact ⟨trivial, trivial⟩

theorem joins_mergeFields (hfragment : (Json.object fragment).ordered = true)
    (h : mergeFields target fragment = some merged) : Joins target fragment merged := by
  have hkeys := (Json.ordered_object.1 hfragment).1
  refine ⟨fun key hkey value hvalue => ?_, fun key hkey value hnone hvalue hclosed => ?_,
    fun key hkey hnone hother => ?_, fun value other hvalue hother => ?_, fun inst hrequired => ?_,
    fun name => declaredProperty?_mergeFields hfragment h⟩
  · simp only [List.mem_cons, List.not_mem_nil, or_false, not_or] at hkey
    exact get?_mergeFields_of_get? hkey.1 hkey.2 h hvalue
  · simp only [List.mem_cons, List.not_mem_nil, or_false, not_or] at hkey
    obtain ⟨given, next, hgiven, hnext, hmerged⟩ := (get?_mergeFields hkeys hkey.2.1 h).2 value hvalue
    rw [hnone] at hgiven
    unfold mergeKeyword at hnext
    rw [if_neg hkey.1] at hnext
    split at hnext
    · rename_i htype
      subst htype
      rw [hgiven] at hnext
      cases hnext
      rw [hmerged, Fields.get?_insert, if_pos rfl]
    · rw [if_neg hkey.2.2] at hnext
      split at hnext
      · rename_i hopen
        rw [Bool.and_eq_true, decide_eq_true_iff] at hopen
        exact absurd (same_bool.1 hopen.2) (hclosed hopen.1)
      · cases hnext
        rw [hmerged, Fields.get?_insertIfAbsent, if_pos rfl, hgiven, Option.getD_none]
  · rw [(get?_mergeFields hkeys hkey h).1 hother, hnone]
  · obtain ⟨given, next, hgiven, hnext, -⟩ := (get?_mergeFields hkeys (by decide) h).2 other hother
    rw [hvalue] at hgiven
    unfold mergeKeyword at hnext
    rw [if_neg (by decide), if_pos rfl, hgiven] at hnext
    dsimp only at hnext
    split at hnext
    · rename_i hsame
      exact hsame
    · cases hnext
  · cases hother : fragment.get? "required" with
    | none =>
      rw [(get?_mergeFields hkeys (by decide) h).1 hother] at hrequired
      exact ⟨hrequired, nofun⟩
    | some other =>
      obtain ⟨given, next, hgiven, hnext, hmerged⟩ := (get?_mergeFields hkeys (by decide) h).2 other hother
      unfold mergeKeyword at hnext
      rw [if_pos rfl, hgiven] at hnext
      split at hnext
      · rename_i names more hnames
        cases hnext
        rw [hmerged, Fields.get?_insert, if_pos rfl] at hrequired
        obtain ⟨hown, hmore⟩ := holds_of_mergeRequired (hrequired _ rfl)
        refine ⟨fun held hheld => ?_, fun held hheld => ?_⟩
        · rw [hheld, Option.getD_some] at hnames
          exact hnames ▸ hown
        · cases hheld
          exact hmore
      · cases hnext

/-- Keywords that neither schema is merged by can be left out. -/
theorem Joins.erase (h : Joins target fragment merged)
    (hkey : key ∉ ["required", "properties", "type"]) :
    Joins (target.erase key) (fragment.erase key) (merged.erase key) := by
  simp only [List.mem_cons, List.not_mem_nil, or_false, not_or] at hkey
  have hother : ∀ {fields : Fields} {other : String}, other ≠ key →
      Fields.get? other (fields.erase key) = fields.get? other := by
    intro fields other hne
    rw [Fields.get?_erase, if_neg hne.symm]
  have hsome : ∀ {fields : Fields} {other : String} {value : Json},
      Fields.get? other (fields.erase key) = some value → other ≠ key ∧ fields.get? other = some value := by
    intro fields other value hvalue
    rw [Fields.get?_erase] at hvalue
    split at hvalue
    · cases hvalue
    · rename_i hne
      exact ⟨Ne.symm hne, hvalue⟩
  refine ⟨fun other hshared value hvalue => ?_, fun other hshared value hnone hvalue hclosed => ?_,
    fun other hproperties hnone hmissing => ?_, fun value other hvalue hheld => ?_, fun inst hrequired => ?_,
    fun name => ?_⟩
  · obtain ⟨hne, hold⟩ := hsome hvalue
    rw [hother hne]
    exact h.own other hshared value hold
  · obtain ⟨hne, hold⟩ := hsome hvalue
    rw [hother hne] at hnone ⊢
    exact h.added other hshared value hnone hold hclosed
  · by_cases hne : other = key
    · rw [Fields.get?_erase, if_pos hne.symm]
    · rw [hother hne] at hnone hmissing ⊢
      exact h.absent other hproperties hnone hmissing
  · exact h.types value other (hsome hvalue).2 (hsome hheld).2
  · rw [hother (Ne.symm hkey.1)] at hrequired ⊢
    rw [hother (Ne.symm hkey.1)]
    exact h.required inst hrequired
  · have hsame : ∀ {fields : Fields}, declaredProperty? (Fields.erase key fields) name =
        declaredProperty? fields name :=
      fun {_} => declaredProperty?_congr (hother (Ne.symm hkey.2.1))
    rw [hsame, hsame, hsame]
    exact h.properties name

end

/-! ## Merged layers -/

section

variable {document inst : Json} {up : List Json → Json → Prop} {left right both : Fields} {a b : Json}
  {before after : List Json} {name : String}

/-- All keywords but a few are those of the first schema that has them. -/
theorem Joins.get?_eq (h : Joins left right both) {key : String}
    (hkey : key ∉ ["required", "properties", "discriminator", "additionalProperties"]) :
    both.get? key = (left.get? key).or (right.get? key) := by
  simp only [List.mem_cons, List.not_mem_nil, or_false, not_or] at hkey
  obtain ⟨hrequired, hproperties, hdiscriminator, hfurther⟩ := hkey
  cases hown : left.get? key with
  | some value => exact h.own key (by simp [hrequired, hproperties]) value hown
  | none =>
    cases hadded : right.get? key with
    | some value =>
      exact h.added key (by simp [hrequired, hproperties, hdiscriminator]) value hown hadded
        fun heq => absurd heq hfurther
    | none => exact h.absent key hproperties hown hadded

theorem Joins.hasClearMaps (h : Joins left right both) (hleft : HasClearMaps left)
    (hright : HasClearMaps right) : HasClearMaps both := by
  intro key hkey entries hentries fragments hfragments
  by_cases hproperties : key = "properties"
  · subst hproperties
    have hdeclared := h.properties "allOf"
    rw [declaredProperty?_of_object hentries, hfragments] at hdeclared
    cases hown : declaredProperty? left "allOf" with
    | none =>
      rw [hown] at hdeclared
      obtain ⟨given, hgiven, hheld⟩ := declaredProperty?_eq_some.1 hdeclared.symm
      exact hright _ hkey given hgiven fragments hheld
    | some value =>
      rw [hown] at hdeclared
      cases hadded : declaredProperty? right "allOf" with
      | none =>
        rw [hadded] at hdeclared
        cases hdeclared
        obtain ⟨given, hgiven, hheld⟩ := declaredProperty?_eq_some.1 hown
        exact hleft _ hkey given hgiven fragments hheld
      | some other =>
        rw [hadded] at hdeclared
        have hobject := isObject_mergeSchemas value other
        rw [← Option.some.inj hdeclared] at hobject
        cases hobject
  · have hmerged : ∀ key ∈ ["properties", "patternProperties", "dependencies"], key ≠ "properties" →
        key ∉ ["required", "properties", "discriminator", "additionalProperties"] := by decide
    rw [h.get?_eq (hmerged key hkey hproperties), Option.or_eq_some_iff] at hentries
    rcases hentries with hown | ⟨-, hadded⟩
    · exact hleft key hkey entries hown fragments hfragments
    · exact hright key hkey entries hadded fragments hfragments

theorem Joins.matchingPatterns_eq_nil (h : Joins left right both) (hleft : matchingPatterns left name = [])
    (hright : matchingPatterns right name = []) : matchingPatterns both name = [] := by
  refine List.eq_nil_iff_forall_not_mem.2 fun entry hentry => ?_
  obtain ⟨patterns, hpatterns, hmatched⟩ := mem_matchingPatterns.1 hentry
  rw [h.get?_eq (by decide), Option.or_eq_some_iff] at hpatterns
  rcases hpatterns with hown | ⟨-, hadded⟩
  · have hmem := mem_matchingPatterns.2 ⟨patterns, hown, hmatched⟩
    rw [hleft] at hmem
    cases hmem
  · have hmem := mem_matchingPatterns.2 ⟨patterns, hadded, hmatched⟩
    rw [hright] at hmem
    cases hmem

theorem declaredBy_pair : declaredBy [.object left, .object right] name =
    (declaredProperty? left name).toList ++ (declaredProperty? right name).toList := by
  rw [declaredBy_cons, declaredBy_singleton]
  rfl

theorem not_mem_of_not_mem_sharedKeywords {key : String} (h : key ∉ sharedKeywords) :
    key ∉ ["required", "properties", "discriminator", "additionalProperties"] ∧
      key ∉ ["required", "properties"] := by
  have hsubset : ["required", "properties", "discriminator", "additionalProperties"] ⊆ sharedKeywords ∧
      ["required", "properties"] ⊆ sharedKeywords := by decide
  exact ⟨fun hmem => h (hsubset.1 hmem), fun hmem => h (hsubset.2 hmem)⟩

theorem contentFailures_of_same {fields : Fields}
    (hsame : ∀ key ∈ contentKeywords, Fields.get? key both = fields.get? key)
    (h : ∀ key value, both.get? key = some value → contentFailures both key value inst = [])
    (key : String) (value : Json) (hvalue : fields.get? key = some value) :
    contentFailures fields key value inst = [] := by
  by_cases hkey : key ∈ contentKeywords
  · rw [contentFailures_congr key value inst (hsame _ (by decide)).symm (hsame _ (by decide)).symm]
    exact h key value ((hsame key hkey).trans hvalue)
  · simp only [contentKeywords, List.mem_cons, List.not_mem_nil, or_false, not_or] at hkey
    exact contentFailures_of_ne value inst hkey.1 hkey.2

theorem Joins.get?_content (h : Joins left right both) {key : String} (hkey : key ∈ contentKeywords) :
    both.get? key = (left.get? key).or (right.get? key) := by
  have hother : ∀ key ∈ contentKeywords,
      key ∉ ["required", "properties", "discriminator", "additionalProperties"] := by decide
  exact h.get?_eq (hother key hkey)

/-- The first of two merged schemas shows in what comes of them. -/
theorem Joins.shows_left (h : Joins left right both) :
    ShowsIn document up inst [] (.object left) [.object right] [] (.object both) [] where
  keywords first hrespects := by
    refine hrespects.imp (fun _ _ => id) fun key value hvalue => ?_
    obtain ⟨hkey, hbefore, hheld⟩ := get?_won.1 hvalue
    exact get?_won.2 ⟨hkey, hbefore, h.own key (not_mem_of_not_mem_sharedKeywords hkey).2 value hheld⟩
  joined key hkey hholds value hvalue := by
    rcases List.mem_pair.1 hkey with rfl | rfl
    · exact hholds value (h.own _ (by decide) value hvalue)
    · exact (h.required inst hholds).1 value hvalue
  content _ hlater := by
    have hsame : ∀ key ∈ contentKeywords, Fields.get? key both = left.get? key := by
      intro key hkey
      rw [h.get?_content hkey]
      cases hvalue : left.get? key with
      | some value => rfl
      | none => exact hlater (.object right) (List.mem_singleton_self _) key hkey hvalue
    exact ⟨nofun, nofun, fun key hkey hnone => (hsame key hkey).symm.trans hnone,
      contentFailures_of_same hsame⟩
  further _ sub hsub hschema hclosed :=
    ⟨List.forall_mem_nil _, sub, h.own _ (by decide) sub hsub, hschema,
      fun heq => absurd (hclosed heq) (by simp), fun _ _ => id⟩

/-- The second one does, apart from what the first one has too. -/
theorem Joins.shows_right (h : Joins left right both) :
    ShowsIn document up inst [.object left] (.object right) [] [] (.object both) [] where
  keywords first hrespects := by
    refine hrespects.imp (fun _ _ => id) fun key value hvalue => ?_
    obtain ⟨hkey, hbefore, hheld⟩ := get?_won.1 hvalue
    have hnone : left.get? key = none := hbefore _ (List.mem_append_right _ (List.mem_singleton_self _))
    refine get?_won.2 ⟨hkey, fun earlier hearlier => hbefore earlier ?_, ?_⟩
    · rw [List.append_nil] at hearlier
      exact List.mem_append_left _ hearlier
    · show both.get? key = some value
      rw [h.get?_eq (not_mem_of_not_mem_sharedKeywords hkey).1, hnone, Option.none_or]
      exact hheld
  joined key hkey hholds value hvalue := by
    rcases List.mem_pair.1 hkey with rfl | rfl
    · cases hown : left.get? "type" with
      | none =>
        refine hholds value ?_
        show both.get? "type" = some value
        rw [h.get?_eq (by decide), hown, Option.none_or]
        exact hvalue
      | some own =>
        have hsame := typeNames_of_same (h.types own value hown hvalue)
        obtain ⟨type, hname, htype⟩ := hholds own (h.own _ (by decide) own hown)
        exact ⟨type, hsame ▸ hname, htype⟩
    · exact (h.required inst hholds).2 value hvalue
  content hfirst _ := by
    have hsame : ∀ key ∈ contentKeywords, Fields.get? key both = right.get? key := by
      intro key hkey
      have hnone : left.get? key = none := hfirst (.object left) (List.mem_singleton_self _) key hkey
      rw [h.get?_content hkey, hnone, Option.none_or]
    exact ⟨nofun, nofun, fun key hkey hnone => (hsame key hkey).symm.trans hnone,
      contentFailures_of_same hsame⟩
  further hfirst sub hsub hschema hclosed := by
    have hnone : left.get? "additionalProperties" = none := hfirst _ (List.mem_singleton_self _)
    have hopen : sub ≠ .bool false := fun heq => by cases hclosed heq
    exact ⟨List.forall_mem_nil _, sub, h.added _ (by decide) sub hnone hsub fun _ => hopen, hschema,
      fun heq => absurd heq hopen, fun _ _ => id⟩

end

/-! ## Schemas that fit each other -/

section

variable {typing a b : Json} {target fragment : Fields} {before after : List Json}

theorem IsTyping.same (h : IsTyping typing) : typing.same typing = true := by
  obtain ⟨name, rfl⟩ | ⟨names, rfl⟩ := h
  · exact same_string.2 rfl
  · show Json.sameItems (names.map .string) (names.map .string) = true
    induction names with
    | nil => rfl
    | cons name rest ih =>
      rw [List.map_cons, Json.sameItems, Bool.and_eq_true]
      exact ⟨same_string.2 rfl, ih⟩

theorem Fits.insert {key : String} {value : Json} (h : Fits typing (.object target))
    (htyping : key = "type" → value = typing) (hrequired : key = "required" → ∃ names, value = .array names)
    (hproperties : key = "properties" → ∃ given, value = .object given) :
    Fits typing (.object (target.insert key value)) := by
  have hget : ∀ {other held}, (Json.object (target.insert key value)).get? other = some held →
      key = other ∧ held = value ∨ (Json.object target).get? other = some held := by
    intro other held hheld
    rw [Json.get?, Fields.get?_insert] at hheld
    split at hheld
    · rename_i hkey
      exact .inl ⟨hkey, (Option.some.inj hheld).symm⟩
    · exact .inr hheld
  refine ⟨fun held hheld => ?_, fun held hheld => ?_, fun held hheld => ?_⟩
  · exact (hget hheld).elim (fun hnew => hnew.2 ▸ htyping hnew.1) (h.typing held)
  · exact (hget hheld).elim (fun hnew => hnew.2 ▸ hrequired hnew.1) (h.required held)
  · exact (hget hheld).elim (fun hnew => hnew.2 ▸ hproperties hnew.1) (h.properties held)

theorem Fits.exists_mergeKeyword {key : String} {value : Json} (htyping : typing.same typing = true)
    (h : Fits typing (.object target)) (htype : key = "type" → value = typing)
    (hrequired : key = "required" → ∃ names, value = .array names) (hkey : key ≠ "properties") :
    ∃ next, mergeKeyword target key value = some next ∧ Fits typing (.object next) := by
  unfold mergeKeyword
  by_cases hnames : key = "required"
  · obtain ⟨more, rfl⟩ := hrequired hnames
    have hheld : ∃ names, (target.get? "required").getD (.array []) = .array names := by
      cases hvalue : target.get? "required" with
      | none => exact ⟨[], rfl⟩
      | some held => exact h.required held hvalue
    obtain ⟨names, hheld⟩ := hheld
    rw [if_pos hnames, hheld]
    exact ⟨_, rfl, h.insert nofun (fun _ => ⟨_, rfl⟩) nofun⟩
  · rw [if_neg hnames]
    by_cases hname : key = "type"
    · rw [if_pos hname]
      cases hheld : target.get? "type" with
      | none => exact ⟨_, rfl, h.insert (fun _ => htype hname) nofun nofun⟩
      | some held =>
        refine ⟨target, ?_, h⟩
        rw [h.typing held hheld, htype hname]
        exact if_pos htyping
    · rw [if_neg hname]
      split
      · exact ⟨target, rfl, h⟩
      · split
        · exact ⟨target, rfl, h⟩
        · refine ⟨_, rfl, ?_⟩
          unfold Fields.insertIfAbsent
          split
          · exact h
          · exact h.insert (fun heq => absurd heq hname) (fun heq => absurd heq hnames)
              fun heq => absurd heq hkey

/-- Schemas that fit each other can be merged. -/
theorem exists_mergeFields_of_fits (htyping : typing.same typing = true)
    (htarget : Fits typing (.object target)) (hfragment : Fits typing (.object fragment))
    (hkeys : fragment.Ordered) : ∃ merged, mergeFields target fragment = some merged := by
  induction fragment generalizing target with
  | nil => exact ⟨target, by rw [mergeFields]⟩
  | cons field rest ih =>
    obtain ⟨name, held⟩ := field
    obtain ⟨hfirst, hrest⟩ := Fields.ordered_cons.1 hkeys
    have hhead : ∀ {key}, name = key → (Json.object ((name, held) :: rest)).get? key = some held := by
      intro key hkey
      rw [Json.get?, Fields.get?_cons, if_pos hkey]
    have htail : ∀ {key value}, (Json.object rest).get? key = some value →
        (Json.object ((name, held) :: rest)).get? key = some value := by
      intro key value hvalue
      have hne : name ≠ key := by
        rintro rfl
        exact String.lt_irrefl _ (hfirst _ (Fields.mem_of_get? hvalue))
      rw [Json.get?, Fields.get?_cons, if_neg hne]
      exact hvalue
    have hothers : Fits typing (.object rest) :=
      ⟨fun value hvalue => hfragment.typing value (htail hvalue),
        fun value hvalue => hfragment.required value (htail hvalue),
        fun value hvalue => hfragment.properties value (htail hvalue)⟩
    by_cases hname : name = "properties"
    · obtain ⟨more, rfl⟩ := hfragment.properties held (hhead hname)
      have hown : ∃ properties, (target.get? "properties").getD (.object []) = .object properties := by
        cases hvalue : target.get? "properties" with
        | none => exact ⟨[], rfl⟩
        | some value => exact htarget.properties value hvalue
      obtain ⟨properties, hown⟩ := hown
      subst hname
      rw [mergeFields_properties hown]
      have hinserted : Fits typing
          (.object (target.insert "properties" (.object (mergeProperties properties more)))) :=
        htarget.insert (fun heq => absurd heq (by decide)) (fun heq => absurd heq (by decide))
          fun _ => ⟨_, rfl⟩
      exact ih hinserted hothers hrest
    · rw [mergeFields_keyword hname]
      obtain ⟨next, hnext, hfits⟩ := htarget.exists_mergeKeyword htyping
        (fun heq => hfragment.typing held (hhead heq)) (fun heq => hfragment.required held (hhead heq)) hname
      rw [hnext, Option.bind_some]
      exact ih hfits hothers hrest

/-- Schemas that fit each other are merged into one that does. -/
theorem Stackable.merged (htyping : IsTyping typing) (ha : Stackable typing a) (hb : Stackable typing b)
    (hordered : b.ordered = true) : Stackable typing (mergeSchemas a b) := by
  obtain ⟨left, rfl⟩ := exists_object_of_isObject ha.object
  obtain ⟨right, rfl⟩ := exists_object_of_isObject hb.object
  have hkeys := (Json.ordered_object.1 hordered).1
  obtain ⟨both, hboth⟩ := exists_mergeFields_of_fits htyping.same ha.toFits hb.toFits hkeys
  have hreferences : ¬ (Fields.hasKey left "$ref" || Fields.hasKey right "$ref") = true := by
    rw [Fields.hasKey_eq_false_iff.2 ha.reference, Fields.hasKey_eq_false_iff.2 hb.reference]
    exact Bool.false_ne_true
  have hmerged : mergeSchemas (.object left) (.object right) = .object both := by
    rw [mergeSchemas, if_neg hreferences, hboth]
  have hjoins := joins_mergeFields hordered hboth
  have hnone : ∀ key ∈ ["$ref", "allOf"], Fields.get? key left = none → Fields.get? key right = none →
      both.get? key = none := by
    intro key hkey hleft hright
    have hproperties : ∀ key ∈ ["$ref", "allOf"], key ≠ "properties" := by decide
    exact hjoins.absent key (hproperties key hkey) hleft hright
  rw [hmerged]
  refine ⟨⟨fun value hvalue => ?_, fun value hvalue => ?_, fun value hvalue => ?_⟩, rfl,
    hnone _ (by decide) ha.reference hb.reference, hnone _ (by decide) ha.fragments hb.fragments⟩
  · cases origin_of_mergeFields hkeys hboth hvalue with
    | own h => exact ha.typing value h
    | added h => exact hb.typing value h
    | required hkey => exact absurd hkey (by decide)
    | properties hkey => exact absurd hkey (by decide)
  · cases origin_of_mergeFields hkeys hboth hvalue with
    | own h => exact ha.required value h
    | added h => exact hb.required value h
    | required _ _ _ hjoined => exact ⟨_, hjoined⟩
    | properties hkey => exact absurd hkey (by decide)
  · cases origin_of_mergeFields hkeys hboth hvalue with
    | own h => exact ha.properties value h
    | added h => exact hb.properties value h
    | required hkey => exact absurd hkey (by decide)
    | properties _ hgiven => exact ⟨_, hgiven⟩

theorem ranked_singleton (schema : Json) : Ranked [schema] :=
  .stacked (.string "") (.inl ⟨_, rfl⟩) nofun

/-- Schemas stay in their order when two of them are merged. -/
theorem Ranked.merged (hordered : b.ordered = true) (h : Ranked (before ++ [a, b] ++ after)) :
    Ranked (before ++ [mergeSchemas a b] ++ after) := by
  cases h with
  | stacked typing htyping h =>
    refine .stacked typing htyping fun schema hschema => ?_
    rw [List.append_assoc] at h hschema
    rw [List.dropLast_append_of_ne_nil (by simp)] at h hschema
    rcases List.mem_append.1 hschema with hbefore | hrest
    · exact h schema (List.mem_append_left _ hbefore)
    · cases after with
      | nil => cases hrest
      | cons head tail =>
        have hsplit : ∀ front, (front ++ head :: tail).dropLast = front ++ (head :: tail).dropLast :=
          fun front => List.dropLast_append_of_ne_nil (by simp)
        rw [hsplit] at h hrest
        rcases List.mem_append.1 hrest with hmerged | htail
        · rw [List.mem_singleton.1 hmerged]
          exact (h a (by simp)).merged htyping (h b (by simp)) hordered
        · exact h schema (List.mem_append_right _ (List.mem_append_right _ htail))
  | apart hschemas _ =>
    have hlength := congrArg List.length hschemas
    simp only [List.length_append, List.length_cons, List.length_nil] at hlength
    have hbefore : before = [] := List.eq_nil_of_length_eq_zero (by omega)
    have hafter : after = [] := List.eq_nil_of_length_eq_zero (by omega)
    rw [hbefore, hafter]
    exact ranked_singleton _

end

/-! ## Merged schemas -/

section

variable {document a b : Json} {depth : Nat} {left right both : Fields} {layers : List Json}

/-- A layer without keywords asks for nothing. -/
theorem replaces_nothing {up : List Json → Json → Prop} {inst : Json} (hlength : 2 ≤ layers.length) :
    Replaces document up inst (.object [] :: layers) layers where
  nonempty hnil := by
    rw [hnil] at hlength
    cases hlength
  possible := List.mem_cons_of_mem _
  absent _ _ hnone := List.forall_mem_cons.2 ⟨rfl, hnone⟩
  unclaimed _ hunclaimed := List.forall_mem_cons.2 ⟨rfl, hunclaimed⟩
  properties _ _ _ _ _ hranked hall := hall hranked
  shows before layer after hlayers := by
    refine ⟨.object [] :: before, layer, after, by rw [hlayers]; rfl, ?_⟩
    refine ⟨fun first h => h.imp (fun _ _ => id) fun key value hvalue => ?_, fun _ _ => id,
      fun hfirst hlater => ⟨List.forall_mem_cons.2 ⟨fun _ _ => rfl, hfirst⟩, hlater, fun _ _ => id, id⟩,
      fun hfirst sub hsub hschema hclosed => ?_⟩
    · obtain ⟨hkey, hbefore, hheld⟩ := get?_won.1 hvalue
      refine get?_won.2 ⟨hkey, fun earlier hearlier => ?_, hheld⟩
      rcases List.mem_append.1 hearlier with hmem | hmem
      · exact hbefore earlier (List.mem_append_left _ hmem)
      · rcases List.mem_cons.1 hmem with rfl | hmem
        · rfl
        · exact hbefore earlier (List.mem_append_right _ hmem)
    · refine ⟨List.forall_mem_cons.2 ⟨rfl, hfirst⟩, sub, hsub, hschema, fun heq => ?_, fun _ _ => id⟩
      obtain ⟨rfl, rfl⟩ := List.append_eq_nil_iff.1 (hclosed heq)
      rw [hlayers] at hlength
      simp at hlength

/-- A composition of two schemas without keywords of its own stands for the two. -/
theorem standsFor_composed : StandsFor document depth [composed a b] [a, b] := by
  have href : (composed a b).reference? = none := rfl
  have hparts : StandsFor document depth [composed a b] ([.object []] ++ [a, b]) := standsFor_parts href
  refine hparts.trans fun before after inst hinst h => ?_
  cases depth with
  | zero => trivial
  | succ depth =>
    intro layers hlayers
    rw [List.append_assoc] at hlayers
    obtain ⟨first, rest, rfl, hfirst, hrest⟩ := exists_unfolds_of_append hlayers
    obtain ⟨inner, last, rfl, hinner, hlast⟩ := exists_unfolds_of_append hrest
    have hall : Unfolds document ([a, b] ++ after) (inner ++ last) := unfolds_append hinner hlast
    have hnothing : Unfolds document (.object [] :: ([a, b] ++ after)) (.object [] :: (inner ++ last)) :=
      .layer rfl nofun hall
    have hupholds := h (first ++ (.object [] :: inner) ++ last) (by
      simpa only [List.append_assoc, List.cons_append, List.nil_append] using unfolds_append hfirst hnothing)
    rw [← List.append_assoc]
    exact (replaces_nothing (length_le_of_unfolds hinner)).upholds hinst hupholds

/-- What merging a property of two schemas has to keep, as far as a depth shows. -/
def KeepsRanked (document : Json) (depth : Nat) : Prop :=
  ∀ before after a b inst, a.ordered = true → b.ordered = true → inst.ordered = true →
    Ranked (before ++ [a, b] ++ after) →
      UpheldTo document depth (before ++ [mergeSchemas a b] ++ after) inst →
        UpheldTo document depth (before ++ [a, b] ++ after) inst

/-- A merged schema replaces the two that it is merged of. -/
theorem Joins.replaces (h : Joins left right both) (hleft : (Json.object left).ordered = true)
    (hright : (Json.object right).ordered = true) (hkeeps : KeepsRanked document depth) {inst : Json} :
    Replaces document (UpheldTo document depth) inst [.object both] [.object left, .object right] where
  nonempty := nofun
  possible hfalse := by simp at hfalse
  absent key hkey hnone := by
    simp only [List.mem_cons, List.not_mem_nil, or_false, not_or] at hkey
    rw [List.forall_mem_cons, List.forall_mem_singleton] at hnone
    exact List.forall_mem_singleton.2 (h.absent key hkey.2 hnone.1 hnone.2)
  unclaimed name hunclaimed := by
    rw [Unclaimed, List.forall_mem_cons, List.forall_mem_singleton] at hunclaimed
    simp only [propertySchemas, keywordsOf, List.append_eq_nil_iff, Option.toList_eq_nil_iff,
      List.map_eq_nil_iff] at hunclaimed
    refine List.forall_mem_singleton.2 ?_
    have hdeclared := h.properties name
    rw [hunclaimed.1.1, hunclaimed.2.1] at hdeclared
    have hpatterns := h.matchingPatterns_eq_nil hunclaimed.1.2 hunclaimed.2.2
    rw [keywordsOf, propertySchemas, hdeclared, hpatterns]
    rfl
  properties name before after value hvalue hranked hall := by
    rw [declaredBy_pair] at hranked ⊢
    rw [declaredBy_singleton, keywordsOf, h.properties name] at hall
    cases hown : declaredProperty? left name with
    | none =>
      rw [hown] at hall hranked
      exact hall hranked
    | some a =>
      cases hadded : declaredProperty? right name with
      | none =>
        rw [hown, hadded] at hall hranked
        exact hall hranked
      | some b =>
        rw [hown, hadded] at hall hranked
        have ha := ordered_of_declaredProperty? hleft hown
        have hb := ordered_of_declaredProperty? hright hadded
        exact hkeeps before after a b value ha hb hvalue hranked (hall (hranked.merged hb))
  shows before layer after hlayers := by
    cases before with
    | nil =>
      cases hlayers
      exact ⟨[], .object both, [], rfl, h.shows_left⟩
    | cons head rest =>
      cases rest with
      | nil =>
        cases hlayers
        exact ⟨[], .object both, [], rfl, h.shows_right⟩
      | cons next rest => simp at hlayers

/-- A schema merged of two stands for them, the first of which has no fragments. -/
theorem standsFor_mergeFields (hleft : (Json.object left).ordered = true)
    (hright : (Json.object right).ordered = true) (hfragments : left.get? "allOf" = none)
    (hown : (Json.object left).reference? = none) (hadded : (Json.object right).reference? = none)
    (hboth : (Json.object both).reference? = none) (hkeeps : KeepsRanked document depth)
    (h : mergeFields left right = some both) :
    StandsFor document (depth + 1) [.object both] [.object left, .object right] := by
  have hjoins := joins_mergeFields hright h
  have hconjuncts : conjuncts both = conjuncts right := by
    rw [conjuncts, hjoins.get?_eq (by decide), hfragments, Option.none_or, conjuncts]
  have hsame : withoutFragments (.object left) = .object left := withoutFragments_eq_self hfragments
  have herased : Joins left (right.erase "allOf") (both.erase "allOf") := by
    have hall : Joins (left.erase "allOf") (right.erase "allOf") (both.erase "allOf") :=
      hjoins.erase (by decide)
    rwa [Json.object.inj hsame] at hall
  have hlayers : ∀ schema ∈ [Json.object left, .object (Fields.erase "allOf" right)], IsLayer schema := by
    refine List.forall_mem_cons.2 ⟨⟨hown, hfragments⟩, List.forall_mem_singleton.2 ?_⟩
    exact isLayer_withoutFragments hadded
  -- the fragments of the second schema come behind what is merged of the keywords of both
  have hkeywords : StandsFor document (depth + 1) [.object (Fields.erase "allOf" both)]
      [.object left, .object (Fields.erase "allOf" right)] := by
    refine standsFor_of_layers (List.forall_mem_singleton.2 (isLayer_withoutFragments hboth)) hlayers
      (fun hmaps => ?_) fun _ before after inst hinst => ?_
    · rw [List.forall_mem_cons, List.forall_mem_singleton] at hmaps
      exact List.forall_mem_singleton.2 (herased.hasClearMaps hmaps.1 hmaps.2)
    · exact (herased.replaces hleft (ordered_erase hright "allOf") hkeeps).upholds hinst
  have hparts : StandsFor document (depth + 1) [.object both]
      ([.object (Fields.erase "allOf" both)] ++ conjuncts right) := by
    have hsplit : StandsFor document (depth + 1) [.object both]
        (.object (Fields.erase "allOf" both) :: conjuncts both) := standsFor_parts hboth
    rwa [hconjuncts] at hsplit
  have hwhole : StandsFor document (depth + 1)
      ([.object (Fields.erase "allOf" right)] ++ conjuncts right) [.object right] :=
    standsFor_composition hadded
  refine (hparts.trans (hkeywords.append (.refl _))).trans ?_
  exact (StandsFor.refl [.object left]).append hwhole

theorem reference?_eq_none_of_get? {schema : Json} (h : schema.get? "$ref" = none) :
    schema.reference? = none := by
  rw [Json.reference?, Json.getString?, h]
  rfl

/-- The first of two ranked schemas that are merged key by key has no fragments. -/
theorem Ranked.stackable_first {before after : List Json} (ha : ¬ IsApart a) (hb : ¬ IsApart b)
    (h : Ranked (before ++ [a, b] ++ after)) : ∃ typing, Stackable typing a := by
  cases h with
  | stacked typing _ h =>
    refine ⟨typing, h a ?_⟩
    rw [List.append_assoc, List.dropLast_append_of_ne_nil (by simp)]
    refine List.mem_append_right _ ?_
    cases after <;> simp
  | apart hschemas hone =>
    have hlength := congrArg List.length hschemas
    simp only [List.length_append, List.length_cons, List.length_nil] at hlength
    have hbefore : before = [] := List.eq_nil_of_length_eq_zero (by omega)
    have hafter : after = [] := List.eq_nil_of_length_eq_zero (by omega)
    subst hbefore hafter
    cases hschemas
    exact absurd hone (not_or.2 ⟨ha, hb⟩)

/-- Whoever upholds the merged schema of a property upholds the ranked schemas that it is merged of. -/
theorem upheldTo_mergeSchemas (document : Json) (depth : Nat) : KeepsRanked document depth := by
  induction depth with
  | zero => exact fun _ _ _ _ _ _ _ _ _ _ => trivial
  | succ depth ih =>
    intro before after a b inst ha hb hinst hranked h
    unfold mergeSchemas at h
    split at h
    · rename_i left right
      split at h
      · exact standsFor_composed before after inst hinst h
      · rename_i hreferences
        rw [Bool.not_eq_true, Bool.or_eq_false_iff, Fields.hasKey_eq_false_iff,
          Fields.hasKey_eq_false_iff] at hreferences
        split at h
        · rename_i both hboth
          have hjoins := joins_mergeFields hb hboth
          have happart : ∀ fields : Fields, fields.get? "$ref" = none → ¬ IsApart (.object fields) := by
            rintro fields hnone (hobject | hreference)
            · cases hobject
            · exact hreference hnone
          obtain ⟨typing, hstackable⟩ := hranked.stackable_first (happart left hreferences.1)
            (happart right hreferences.2)
          exact standsFor_mergeFields ha hb hstackable.fragments
            (reference?_eq_none_of_get? hreferences.1) (reference?_eq_none_of_get? hreferences.2)
            (reference?_eq_none_of_get? (hjoins.absent _ (by decide) hreferences.1 hreferences.2)) ih hboth
            before after inst hinst h
        · exact standsFor_composed before after inst hinst h
    · exact standsFor_composed before after inst hinst h

end

end ApiContract
