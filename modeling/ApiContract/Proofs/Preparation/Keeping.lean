import ApiContract.Proofs.Preparation.Composing
import Mathlib.Data.List.Forall2

/-! # What flattening keeps

Merging and flattening put values together that stood in the document before. A property that objects
have by their keys and by their values one by one is kept by all of it.

* `Inherited`: such a property.
* `Inherited.merges`: merging keeps it.
* `Inherited.flattening`: the walk keeps it.
* `inherited_ordered`: the order of keys is one; `ordered_of_flattenNode?` and its kin. -/

set_option autoImplicit false

namespace ApiContract

/-! ## What merging makes -/

theorem mem_mergeRequired {names more : List Json} {name : Json}
    (h : name ∈ mergeRequired names more) : name ∈ names ∨ name ∈ more := by
  unfold mergeRequired at h
  induction more generalizing names with
  | nil => exact .inl h
  | cons first rest ih =>
    rw [List.foldl_cons] at h
    rcases ih h with hnames | hrest
    · split at hnames
      · exact .inl hnames
      · rcases List.mem_append.1 hnames with hold | hfirst
        · exact .inl hold
        · exact .inr (List.mem_cons.2 (.inl (List.mem_singleton.1 hfirst)))
    · exact .inr (List.mem_cons_of_mem _ hrest)

/-- Two merged schemas are an object, never a text. -/
theorem mergeSchemas_ne_string (a b : Json) (text : String) : mergeSchemas a b ≠ .string text := by
  unfold mergeSchemas
  split
  · split
    · exact nofun
    · split <;> exact nofun
  · exact nofun

/-! ## Lists -/

theorem forall₂_of_mapM {α β : Type} {f : α → Option β} {items : List α} {results : List β}
    (h : items.mapM f = some results) :
    List.Forall₂ (fun item result => f item = some result) items results := by
  induction items generalizing results with
  | nil =>
    cases h
    exact .nil
  | cons item rest ih =>
    rw [List.mapM_cons] at h
    obtain ⟨result, hresult, hrest⟩ := Option.bind_eq_some_iff.1 h
    obtain ⟨others, hothers, heq⟩ := Option.bind_eq_some_iff.1 hrest
    cases heq
    exact .cons hresult (ih hothers)

theorem exists_getElem?_of_forall₂ {α β : Type} {r : α → β → Prop} {items : List α} {results : List β}
    (h : List.Forall₂ r items results) {i : Nat} {result : β} (hresult : results[i]? = some result) :
    ∃ item, items[i]? = some item ∧ r item result := by
  induction h generalizing i with
  | nil => cases hresult
  | cons hitem _ ih =>
    cases i with
    | zero =>
      cases hresult
      exact ⟨_, rfl, hitem⟩
    | succ i => exact ih hresult

/-! ## Properties of parts -/

/-- A property that values have by their parts: an object by its `keys` and by what stands `under` each of
them, where only a text under `$ref` is something of its own. -/
structure Inherited (p : Json → Prop) (under : String → Json → Prop) (keys : List String → Prop) :
    Prop where
  object : ∀ fields : Fields, p (.object fields) ↔
    keys (fields.map Prod.fst) ∧ ∀ field ∈ fields, under field.1 field.2
  array : ∀ items, p (.array items) ↔ ∀ item ∈ items, p item
  value : ∀ key value, under key value → p value
  plain : ∀ key value, (key = "$ref" → ∀ text, value ≠ .string text) → p value → under key value
  empty : keys []
  insert : ∀ (fields : Fields) (key : String) (value : Json), keys (fields.map Prod.fst) →
    keys ((fields.insert key value).map Prod.fst)
  sublist : ∀ {given left : List String}, left.Sublist given → keys given → keys left

/-! ## Objects -/

namespace Inherited

section

variable {p : Json → Prop} {under : String → Json → Prop} {keys : List String → Prop}
  (hp : Inherited p under keys) {fields : Fields} {key : String} {value : Json}

include hp

theorem under_of_ne (hkey : key ≠ "$ref") (hvalue : p value) : under key value :=
  hp.plain key value (fun heq => absurd heq hkey) hvalue

theorem under_of_get? (h : p (.object fields)) (hvalue : fields.get? key = some value) :
    under key value :=
  ((hp.object fields).1 h).2 (key, value) (Fields.mem_of_get? hvalue)

theorem get? (h : p (.object fields)) (hvalue : fields.get? key = some value) : p value :=
  hp.value key value (hp.under_of_get? h hvalue)

theorem getD {default : Json} (key : String) (h : p (.object fields)) (hdefault : p default) :
    p ((fields.get? key).getD default) := by
  cases hvalue : fields.get? key with
  | none => exact hdefault
  | some held => exact hp.get? h hvalue

theorem nil : p (.object []) := (hp.object []).2 ⟨hp.empty, List.forall_mem_nil _⟩

theorem cons {rest : Fields} (h : p (.object ((key, value) :: rest))) :
    under key value ∧ p (.object rest) := by
  obtain ⟨hkeys, hvalues⟩ := (hp.object _).1 h
  rw [List.forall_mem_cons] at hvalues
  exact ⟨hvalues.1, (hp.object rest).2 ⟨hp.sublist (List.sublist_cons_self _ _) hkeys, hvalues.2⟩⟩

theorem inserted (h : p (.object fields)) (hvalue : under key value) :
    p (.object (fields.insert key value)) := by
  obtain ⟨hkeys, hvalues⟩ := (hp.object fields).1 h
  refine (hp.object _).2 ⟨hp.insert fields key value hkeys, fun field hfield => ?_⟩
  rcases Fields.mem_insert hfield with rfl | hold
  · exact hvalue
  · exact hvalues field hold

theorem insertedIfAbsent (h : p (.object fields)) (hvalue : under key value) :
    p (.object (fields.insertIfAbsent key value)) := by
  unfold Fields.insertIfAbsent
  split
  · exact h
  · exact hp.inserted h hvalue

theorem erased (h : p (.object fields)) (key : String) : p (.object (fields.erase key)) := by
  obtain ⟨hkeys, hvalues⟩ := (hp.object fields).1 h
  refine (hp.object _).2 ⟨hp.sublist (List.filter_sublist.map _) hkeys, fun field hfield => ?_⟩
  exact hvalues field (List.mem_filter.1 hfield).1

theorem under_of_sameKind {other : Json} (hkind : SameKind value other) (h : under key value)
    (hother : p other) : under key other := by
  cases hkind with
  | refl => exact h
  | _ => exact hp.plain key _ (fun _ _ heq => by cases heq) hother

/-! ## Merging -/

theorem mergeKeyword {target merged : Fields} (htarget : p (.object target)) (hvalue : under key value)
    (h : ApiContract.mergeKeyword target key value = some merged) : p (.object merged) := by
  unfold ApiContract.mergeKeyword at h
  split at h
  · split at h
    · rename_i names more hnames
      cases h
      refine hp.inserted htarget (hp.under_of_ne (by decide) ((hp.array _).2 ?_))
      have hheld := hp.getD "required" htarget ((hp.array []).2 (List.forall_mem_nil _))
      rw [hnames] at hheld
      intro name hname
      rcases mem_mergeRequired hname with hold | hnew
      · exact (hp.array names).1 hheld name hold
      · exact (hp.array more).1 (hp.value _ _ hvalue) name hnew
    · cases h
  · split at h
    · split at h
      · split at h
        · cases h
          exact htarget
        · cases h
      · cases h
        exact hp.inserted htarget (hp.under_of_ne (by decide) (hp.value _ _ hvalue))
    · split at h
      · cases h
        exact htarget
      · split at h
        · cases h
          exact htarget
        · cases h
          exact hp.insertedIfAbsent htarget hvalue

theorem composed {a b : Json} (ha : p a) (hb : p b) : p (ApiContract.composed a b) := by
  have hboth : p (.array [a, b]) :=
    (hp.array _).2 (List.forall_mem_cons.2 ⟨ha, List.forall_mem_singleton.2 hb⟩)
  exact hp.inserted hp.nil (hp.under_of_ne (by decide : "allOf" ≠ "$ref") hboth)

theorem merges :
    (∀ target fragment : Fields, p (.object target) → p (.object fragment) →
      ∀ merged, mergeFields target fragment = some merged → p (.object merged)) ∧
    (∀ properties more : Fields, p (.object properties) → p (.object more) →
      p (.object (mergeProperties properties more))) ∧
    (∀ a b : Json, p a → p b → p (mergeSchemas a b)) := by
  refine mergeFields.mutual_induct _ _ _ ?references ?merged ?failed ?plain ?done ?properties
    ?mismatch ?keyword ?none ?property
  case references =>
    intro left right hreference ha hb
    rw [mergeSchemas, if_pos hreference]
    exact hp.composed ha hb
  case merged =>
    intro left right hreference merged hmerged ih ha hb
    rw [mergeSchemas, if_neg hreference, hmerged]
    exact ih ha hb merged hmerged
  case failed =>
    intro left right hreference hfailed _ ha hb
    rw [mergeSchemas, if_neg hreference, hfailed]
    exact hp.composed ha hb
  case plain =>
    intro a b hobjects ha hb
    rw [mergeSchemas]
    · exact hp.composed ha hb
    · exact hobjects
  case done =>
    intro target htarget _ merged hmerged
    rw [mergeFields] at hmerged
    cases hmerged
    exact htarget
  case properties =>
    intro target rest properties more hproperties ihproperties ihrest htarget hfragment merged hmerged
    obtain ⟨hmore, hrest⟩ := hp.cons hfragment
    have hheld := hp.getD "properties" htarget hp.nil
    rw [hproperties] at hheld
    have hboth := ihproperties hheld (hp.value _ _ hmore)
    refine ihrest (hp.inserted htarget (hp.under_of_ne (by decide) hboth)) hrest merged ?_
    rw [mergeFields_properties hproperties] at hmerged
    exact hmerged
  case mismatch =>
    intro target value rest hmismatch htarget hfragment merged hmerged
    rw [mergeFields_mismatch hmismatch] at hmerged
    cases hmerged
  case keyword =>
    intro target key value rest hkey ih htarget hfragment merged hmerged
    obtain ⟨hvalue, hrest⟩ := hp.cons hfragment
    rw [mergeFields_keyword hkey, Option.bind_eq_some_iff] at hmerged
    obtain ⟨next, hnext, hmerged⟩ := hmerged
    exact ih next (hp.mergeKeyword htarget hvalue hnext) hrest merged hmerged
  case none => exact fun properties hproperties _ => by rwa [mergeProperties]
  case property =>
    intro properties name schema rest both ihboth ihrest hproperties hmore
    obtain ⟨hschema, hrest⟩ := hp.cons hmore
    rw [mergeProperties]
    refine ihrest (hp.inserted hproperties ?_) hrest
    cases hexisting : properties.get? name with
    | none =>
      have hboth : both = schema := by
        simp only [both, hexisting]
      rw [hboth]
      exact hschema
    | some existing =>
      have hboth : both = mergeSchemas existing schema := by
        simp only [both, hexisting]
      rw [hboth]
      exact hp.plain name _ (fun _ => mergeSchemas_ne_string _ _)
        (ihboth existing (hp.get? hproperties hexisting) (hp.value _ _ hschema))

/-! ## Flattening -/

theorem mapValues? {g : String → Json → Option Json} {results : Fields} (h : p (.object fields))
    (hg : ∀ field ∈ fields, ∀ result, g field.1 field.2 = some result → under field.1 result)
    (hresults : Fields.mapValues? g fields = some results) : p (.object results) := by
  obtain ⟨hkeys, -⟩ := (hp.object fields).1 h
  rw [← Fields.keys_of_mapValues? hresults] at hkeys
  refine (hp.object results).2 ⟨hkeys, ?_⟩
  clear h hkeys
  induction fields generalizing results with
  | nil =>
    cases hresults
    exact List.forall_mem_nil _
  | cons field rest ih =>
    obtain ⟨key, value⟩ := field
    rw [Fields.mapValues?_cons, Option.bind_eq_some_iff] at hresults
    obtain ⟨result, hresult, hrest⟩ := hresults
    obtain ⟨others, hothers, rfl⟩ := Option.map_eq_some_iff.1 hrest
    rw [List.forall_mem_cons] at hg ⊢
    exact ⟨hg.1 result hresult, ih hg.2 hothers⟩

theorem mapM {f : Json → Option Json} {items results : List Json}
    (hf : ∀ item ∈ items, ∀ result, f item = some result → p result)
    (hresults : items.mapM f = some results) : p (.array results) := by
  rw [hp.array]
  induction items generalizing results with
  | nil =>
    cases hresults
    simp
  | cons item rest ih =>
    rw [List.mapM_cons] at hresults
    obtain ⟨result, hresult, hrest⟩ := Option.bind_eq_some_iff.1 hresults
    obtain ⟨others, hothers, heq⟩ := Option.bind_eq_some_iff.1 hrest
    cases heq
    rw [List.forall_mem_cons] at hf ⊢
    exact ⟨hf.1 result hresult, ih hf.2 hothers⟩

theorem mergeFragments? {document : Json} {depth : Nat} {followed : List String}
    (hfragment : ∀ fragment merged, p fragment →
      ApiContract.resolveFragment? document depth followed fragment = some (some merged) →
        p (.object merged))
    {fragments : List Json} {target merged : Fields} (htarget : p (.object target))
    (hfragments : ∀ fragment ∈ fragments, p fragment)
    (hmerged : fragments.foldlM (mergeFragment? document depth followed) (some target) =
      some (some merged)) : p (.object merged) := by
  induction fragments generalizing target with
  | nil =>
    cases hmerged
    exact htarget
  | cons fragment rest ih =>
    rw [List.forall_mem_cons] at hfragments
    rw [List.foldlM_cons] at hmerged
    obtain ⟨next, hnext, hmerged⟩ := Option.bind_eq_some_iff.1 hmerged
    obtain ⟨resolved, hresolved, rfl⟩ := Option.map_eq_some_iff.1 hnext
    cases hown : resolved.bind (mergeFields target) with
    | none =>
      rw [hown, foldlM_mergeFragment?_none] at hmerged
      cases hmerged
    | some flat =>
      rw [hown] at hmerged
      obtain ⟨held, rfl, hflat⟩ := Option.bind_eq_some_iff.1 hown
      have hheld := hfragment fragment held hfragments.1 hresolved
      exact ih (hp.merges.1 target held htarget hheld flat hflat) hfragments.2 hmerged

section

variable {document : Json} {depth : Nat} {followed : List String}

theorem composedFields? (hfragment : ∀ fragment merged, p fragment →
      ApiContract.resolveFragment? document depth followed fragment = some (some merged) →
        p (.object merged))
    {keywords : Fields} (h : p (.object fields))
    (hkeywords : ApiContract.composedFields? document depth followed fields = some keywords) :
    p (.object keywords) := by
  unfold ApiContract.composedFields? at hkeywords
  split at hkeywords
  · rename_i fragments hfragments
    obtain ⟨flat, hflat, rfl⟩ := Option.map_eq_some_iff.1 hkeywords
    cases flat with
    | none => exact h
    | some merged =>
      exact hp.mergeFragments? hfragment (hp.erased h "allOf")
        ((hp.array fragments).1 (hp.get? h hfragments)) hflat
  · cases hkeywords
    exact h

theorem flattenNode?
    (ihnode : ∀ node flat, p node → ApiContract.flattenNode? document depth followed node = some flat →
      p flat)
    (ihfragment : ∀ fragment merged, p fragment →
      ApiContract.resolveFragment? document depth followed fragment = some (some merged) →
        p (.object merged))
    {node flat : Json} (h : p node)
    (hflat : ApiContract.flattenNode? document (depth + 1) followed node = some flat) : p flat := by
  cases node with
  | object fields =>
    rw [flattenNode?_object, Option.bind_eq_some_iff] at hflat
    obtain ⟨keywords, hkeywords, hflat⟩ := hflat
    obtain ⟨results, hresults, rfl⟩ := Option.map_eq_some_iff.1 hflat
    have hcomposed := hp.composedFields? ihfragment h hkeywords
    refine hp.mapValues? hcomposed (fun field hfield result hresult => ?_) hresults
    have hold := ((hp.object keywords).1 hcomposed).2 field hfield
    refine hp.under_of_sameKind (sameKind_of_flattenField? _ _ _ hresult) hold ?_
    have hvalue := hp.value field.1 field.2 hold
    unfold flattenField? at hresult
    split at hresult
    · cases hresult
      exact hvalue
    · exact ihnode field.2 result hvalue hresult
  | array items =>
    obtain ⟨results, hresults, rfl⟩ := Option.map_eq_some_iff.1 hflat
    refine hp.mapM (fun item hitem result hresult => ?_) hresults
    exact ihnode item result ((hp.array items).1 h item hitem) hresult
  | _ =>
    cases hflat
    exact h

omit hp in
theorem flatFragment? {flat : Json} {keywords : Fields} (h : p flat)
    (hkeywords : ApiContract.flatFragment? flat = some keywords) : p (.object keywords) := by
  unfold ApiContract.flatFragment? at hkeywords
  split at hkeywords
  · split at hkeywords
    · cases hkeywords
    · cases hkeywords
      exact h
  · cases hkeywords

omit hp in
theorem resolveFragment?
    (hdocument : ∀ fragment reference target, p fragment → fragment.reference? = some reference →
      document.resolve? reference = some target → p target)
    (ihnode : ∀ node flat, p node → ApiContract.flattenNode? document depth followed node = some flat →
      p flat)
    (ihfragment : ∀ followed fragment merged, p fragment →
      ApiContract.resolveFragment? document depth followed fragment = some (some merged) →
        p (.object merged))
    {fragment : Json} {keywords : Fields} (h : p fragment)
    (hkeywords : ApiContract.resolveFragment? document (depth + 1) followed fragment =
      some (some keywords)) : p (.object keywords) := by
  unfold ApiContract.resolveFragment? at hkeywords
  split at hkeywords
  · rename_i reference hreference
    split at hkeywords
    · cases hkeywords
    · split at hkeywords
      · rename_i target htarget
        exact ihfragment _ target keywords (hdocument fragment reference target h hreference htarget)
          hkeywords
      · cases hkeywords
  · obtain ⟨flat, hflat, hkeywords⟩ := Option.map_eq_some_iff.1 hkeywords
    exact flatFragment? (ihnode fragment flat h hflat) hkeywords

end

/-- What is kept when references are followed, flattening keeps. -/
theorem flattening {document : Json}
    (hdocument : ∀ fragment reference target, p fragment → fragment.reference? = some reference →
      document.resolve? reference = some target → p target)
    (depth : Nat) :
    (∀ followed node flat, p node →
      ApiContract.flattenNode? document depth followed node = some flat → p flat) ∧
    (∀ followed fragment keywords, p fragment →
      ApiContract.resolveFragment? document depth followed fragment = some (some keywords) →
      p (.object keywords)) := by
  induction depth with
  | zero =>
    refine ⟨fun followed node flat _ h => ?_, fun followed fragment keywords _ h => ?_⟩
    · cases h
    · cases h
  | succ depth ih =>
    obtain ⟨ihnode, ihfragment⟩ := ih
    refine ⟨fun followed node flat h hflat => ?_, fun followed fragment keywords h hkeywords => ?_⟩
    · exact hp.flattenNode? (ihnode followed) (ihfragment followed) h hflat
    · exact resolveFragment? hdocument (ihnode followed) ihfragment h hkeywords

end

end Inherited

/-! ## The order of keys -/

theorem inherited_ordered : Inherited (fun value => value.ordered = true)
    (fun _ value => value.ordered = true) (List.Pairwise (· < ·)) where
  object _ := Json.ordered_object
  array _ := Json.ordered_array
  value _ _ h := h
  plain _ _ _ h := h
  empty := List.Pairwise.nil
  insert _ key value h := Fields.Ordered.insert h key value
  sublist hsublist h := h.sublist hsublist

section

variable {document node flat : Json} {fields keywords : Fields} {depth : Nat} {followed : List String}

theorem ordered_of_flattenNode? (hdocument : document.ordered = true) (hnode : node.ordered = true)
    (h : flattenNode? document depth followed node = some flat) : flat.ordered = true :=
  (inherited_ordered.flattening (fun _ _ _ _ _ htarget => Json.ordered_of_resolve? hdocument htarget) depth).1
    followed node flat hnode h

theorem ordered_of_resolveFragment? (hdocument : document.ordered = true) (hnode : node.ordered = true)
    (h : resolveFragment? document depth followed node = some (some keywords)) :
    (Json.object keywords).ordered = true :=
  (inherited_ordered.flattening (fun _ _ _ _ _ htarget => Json.ordered_of_resolve? hdocument htarget) depth).2
    followed node keywords hnode h

theorem ordered_of_composedFields? (hdocument : document.ordered = true)
    (hfields : (Json.object fields).ordered = true)
    (h : composedFields? document depth followed fields = some keywords) :
    (Json.object keywords).ordered = true :=
  inherited_ordered.composedFields? (fun _ _ => ordered_of_resolveFragment? hdocument) hfields h

end

end ApiContract
