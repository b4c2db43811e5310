import ApiContract.Proofs.Yaml.Keys
import Mathlib.Data.List.Forall2
import Mathlib.Data.List.Nodup

/-! # Entries of mappings

With texts for keys, a value keeps its entries, each under the text of its own key, as long as no mapping has a
text among its keys that is also the text of a flag or of a number among them. Of such entries only the last one
is left.

* `Value.Within`: the values that a value is made of.
* `Value.spelled`: a value with the text of each key in its place and without tags; nothing else is changed.
* `Value.IsProper`: no mapping has a key twice.
* `Value.setEntries`: entries set one after the other; `setEntries_eq_iff`: none is lost exactly when their texts
  are different.
* `Value.exists_withTextKeys_iff`: when there are texts for all keys.
* `Value.nodup_keyTexts_iff`: when the keys of a mapping have different texts.
* `Value.withTextKeys_eq_spelled_iff`: when nothing is lost. -/

set_option autoImplicit false

namespace ApiContract.Yaml.Value

/-! ## Parts -/

/-- The values that a value is made of, the value itself among them. Keys do not count. -/
inductive Within : Value → Value → Prop where
  | refl (value : Value) : Within value value
  | item {part item : Value} {items : List Value} (hitem : item ∈ items) (h : Within part item) :
    Within part (.sequence items)
  | entry {part : Value} {entry : Value × Value} {entries : List (Value × Value)} (hentry : entry ∈ entries)
    (h : Within part entry.2) : Within part (.mapping entries)
  | tagged {part value : Value} (tag : String) (h : Within part value) : Within part (.tagged tag value)

/-- A value has no parts but itself. -/
def isLeaf : Value → Bool
  | sequence _ | mapping _ | tagged _ _ => false
  | _ => true

/-- Induction on what a value is made of. -/
theorem parts_induction {p : Value → Prop} (leaf : ∀ value, value.isLeaf = true → p value)
    (sequence : ∀ items, (∀ item ∈ items, p item) → p (.sequence items))
    (mapping : ∀ entries : List (Value × Value), (∀ entry ∈ entries, p entry.2) → p (.mapping entries))
    (tagged : ∀ tag value, p value → p (.tagged tag value)) (value : Value) : p value := by
  match value with
  | .sequence items => exact sequence items fun item hitem => parts_induction leaf sequence mapping tagged item
  | .mapping entries =>
    exact mapping entries fun entry hentry => parts_induction leaf sequence mapping tagged entry.2
  | .tagged tag value => exact tagged tag value (parts_induction leaf sequence mapping tagged value)
  | .null | .bool _ | .integer _ | .float _ | .infinite _ | .notANumber | .string _ => exact leaf _ rfl
termination_by sizeOf value
decreasing_by
  all_goals simp_wf
  · have := List.sizeOf_lt_of_mem hitem
    omega
  · obtain ⟨k, v⟩ := entry
    have hsize := List.sizeOf_lt_of_mem hentry
    simp only [Prod.mk.sizeOf_spec] at hsize ⊢
    omega

/-- What holds of every mapping that a value is made of. -/
def EveryMapping (p : List (Value × Value) → Prop) (value : Value) : Prop :=
  ∀ entries, Within (.mapping entries) value → p entries

section

variable {p : List (Value × Value) → Prop} {value : Value} {items : List Value} {entries : List (Value × Value)}
  {tag : String}

theorem everyMapping_leaf (h : value.isLeaf = true) : value.EveryMapping p := by
  rintro entries (_ | _ | _ | _) <;> cases h

theorem everyMapping_sequence : (sequence items).EveryMapping p ↔ ∀ item ∈ items, item.EveryMapping p := by
  constructor
  · exact fun h item hitem entries hpart => h entries (.item hitem hpart)
  · rintro h entries (_ | ⟨hitem, hpart⟩)
    exact h _ hitem entries hpart

theorem everyMapping_mapping :
    (mapping entries).EveryMapping p ↔ p entries ∧ ∀ entry ∈ entries, entry.2.EveryMapping p := by
  constructor
  · exact fun h => ⟨h entries (.refl _), fun entry hentry inner hpart => h inner (.entry hentry hpart)⟩
  · rintro ⟨hself, hparts⟩ inner (_ | _ | ⟨hentry, hpart⟩)
    · exact hself
    · exact hparts _ hentry inner hpart

theorem everyMapping_tagged : (tagged tag value).EveryMapping p ↔ value.EveryMapping p := by
  constructor
  · exact fun h entries hpart => h entries (.tagged tag hpart)
  · rintro h entries (_ | _ | _ | ⟨_, hpart⟩)
    exact h entries hpart

end

/-! ## Entries under texts -/

/-- Entries with their texts as keys. -/
def withTexts (texts : List (String × Value)) : List (Value × Value) := texts.map fun e => (string e.1, e.2)

/-- Sets entries one after the other. -/
def setEntries (done : List (Value × Value)) (texts : List (String × Value)) : List (Value × Value) :=
  texts.foldl (fun entries e => setEntry e.1 e.2 entries) done

/-- The texts of the keys of entries. -/
def keyTexts (entries : List (Value × Value)) : List (Option String) := entries.map fun entry => entry.1.keyText?

section

variable {text : String} {value : Value} {done : List (Value × Value)} {texts others : List (String × Value)}

@[simp] theorem keyTexts_withTexts : keyTexts (withTexts texts) = (texts.map Prod.fst).map some := by
  simp [keyTexts, withTexts, keyText?]

theorem withTexts_injective : Function.Injective withTexts :=
  List.map_injective_iff.2 fun e f h => by
    simp only [Prod.mk.injEq, string.injEq] at h
    exact Prod.ext h.1 h.2

theorem setEntry_of_not_mem (h : some text ∉ keyTexts done) :
    setEntry text value done = done ++ [(string text, value)] := by
  induction done with
  | nil => rfl
  | cons entry rest ih =>
    rw [keyTexts, List.map_cons, List.mem_cons, not_or] at h
    rw [setEntry, if_neg fun heq => h.1 heq.symm, ih h.2, List.cons_append]

theorem keyTexts_setEntry_of_mem (h : some text ∈ keyTexts done) :
    keyTexts (setEntry text value done) = keyTexts done := by
  induction done with
  | nil => cases h
  | cons entry rest ih =>
    rw [setEntry]
    split
    · rfl
    · next hne =>
      rw [keyTexts, List.map_cons, List.mem_cons] at h
      have hrest := ih (h.resolve_left fun heq => hne heq.symm)
      rw [keyTexts, keyTexts] at hrest ⊢
      rw [List.map_cons, List.map_cons, hrest]

/-- However entries are set, no text is there twice. -/
theorem nodup_keyTexts_setEntries (h : (keyTexts done).Nodup) : (keyTexts (setEntries done texts)).Nodup := by
  induction texts generalizing done with
  | nil => exact h
  | cons e rest ih =>
    refine @ih (setEntry e.1 e.2 done) ?_
    by_cases hmem : some e.1 ∈ keyTexts done
    · rwa [keyTexts_setEntry_of_mem hmem]
    · rw [setEntry_of_not_mem hmem, keyTexts, List.map_append]
      exact List.nodup_append'.2 ⟨h, List.nodup_singleton _, by simpa [keyTexts, keyText?] using hmem⟩

/-- Entries with different texts are put one behind the other. -/
theorem setEntries_of_nodup (h : (keyTexts (done ++ withTexts texts)).Nodup) :
    setEntries done texts = done ++ withTexts texts := by
  induction texts generalizing done with
  | nil => exact (List.append_nil done).symm
  | cons e rest ih =>
    have hsplit : done ++ withTexts (e :: rest) = (done ++ [(string e.1, e.2)]) ++ withTexts rest := by
      simp [withTexts]
    have hnew : some e.1 ∉ keyTexts done := by
      rw [keyTexts, List.map_append] at h
      exact fun hmem => (List.disjoint_of_nodup_append h) hmem (by simp [withTexts, keyText?])
    rw [setEntries, List.foldl_cons, setEntry_of_not_mem hnew, ← setEntries, hsplit]
    exact ih (hsplit ▸ h)

/-- All entries are left exactly when their texts are different. -/
theorem setEntries_eq_iff (h : others.map Prod.fst = texts.map Prod.fst) :
    setEntries [] texts = withTexts others ↔ (texts.map Prod.fst).Nodup ∧ others = texts := by
  have hall : (texts.map Prod.fst).Nodup → setEntries [] texts = withTexts texts := fun hnodup =>
    setEntries_of_nodup (by
      rw [List.nil_append, keyTexts_withTexts]
      exact hnodup.map (Option.some_injective _))
  constructor
  · intro heq
    have hnodup : (keyTexts (setEntries [] texts)).Nodup := nodup_keyTexts_setEntries List.nodup_nil
    rw [heq, keyTexts_withTexts, h] at hnodup
    have hdifferent := hnodup.of_map
    exact ⟨hdifferent, withTexts_injective (heq.symm.trans (hall hdifferent))⟩
  · rintro ⟨hnodup, rfl⟩
    exact hall hnodup

end

/-! ## Texts for keys -/

section

variable {value kept : Value} {items keptItems : List Value} {done entries result : List (Value × Value)}

theorem withTextKeys_leaf (h : value.isLeaf = true) : value.withTextKeys = .ok value := by
  cases value with
  | sequence | mapping | tagged => cases h
  | _ => rfl

theorem withTextKeys_tagged (tag : String) (value : Value) : (tagged tag value).withTextKeys = value.withTextKeys := rfl

theorem withTextKeysOfItems_eq_ok_iff : withTextKeysOfItems items = .ok keptItems ↔
    List.Forall₂ (fun item kept => item.withTextKeys = .ok kept) items keptItems := by
  induction items generalizing keptItems with
  | nil => rw [withTextKeysOfItems, Except.ok.injEq, List.forall₂_nil_left_iff, eq_comm]
  | cons item rest ih =>
    rw [withTextKeysOfItems, List.forall₂_cons_left_iff]
    cases hitem : item.withTextKeys with
    | error key => simp
    | ok first =>
      have hmap : (withTextKeysOfItems rest).map (first :: ·) = .ok keptItems ↔
          ∃ others, withTextKeysOfItems rest = .ok others ∧ first :: others = keptItems := by
        cases withTextKeysOfItems rest <;> simp [Except.map]
      simp only [hmap, ih, Except.ok.injEq]
      constructor
      · rintro ⟨others, hall, rfl⟩
        exact ⟨first, others, rfl, hall, rfl⟩
      · rintro ⟨_, others, rfl, hall, rfl⟩
        exact ⟨others, hall, rfl⟩

theorem withTextKeysOfEntries_eq_ok_iff : withTextKeysOfEntries done entries = .ok result ↔
    ∃ texts : List (String × Value), List.Forall₂ (fun entry e => entry.1.keyText? = some e.1 ∧
      entry.2.withTextKeys = .ok e.2) entries texts ∧ setEntries done texts = result := by
  induction entries generalizing done with
  | nil => simp [withTextKeysOfEntries, setEntries]
  | cons entry rest ih =>
    obtain ⟨key, value⟩ := entry
    simp only [withTextKeysOfEntries, List.forall₂_cons_left_iff]
    cases hkey : key.keyText? with
    | none => simp
    | some text =>
      cases hvalue : value.withTextKeys with
      | error inner => simp
      | ok kept =>
        simp only [ih, Option.some.injEq, Except.ok.injEq]
        constructor
        · rintro ⟨texts, hall, rfl⟩
          exact ⟨(text, kept) :: texts, ⟨(text, kept), texts, ⟨rfl, rfl⟩, hall, rfl⟩, rfl⟩
        · rintro ⟨_, ⟨⟨_, _⟩, texts, ⟨rfl, rfl⟩, hall, rfl⟩, rfl⟩
          exact ⟨texts, hall, rfl⟩

theorem exists_forall₂_iff {α β : Type} {r : α → β → Prop} {xs : List α} :
    (∃ ys, List.Forall₂ r xs ys) ↔ ∀ x ∈ xs, ∃ y, r x y := by
  induction xs with
  | nil => simp
  | cons x rest ih =>
    rw [List.forall_mem_cons, ← ih]
    constructor
    · rintro ⟨_, _ | ⟨hfirst, hrest⟩⟩
      exact ⟨⟨_, hfirst⟩, _, hrest⟩
    · rintro ⟨⟨y, hfirst⟩, ys, hrest⟩
      exact ⟨y :: ys, .cons hfirst hrest⟩

theorem withTextKeys_sequence_eq_ok_iff : (sequence items).withTextKeys = .ok kept ↔
    ∃ keptItems, List.Forall₂ (fun item kept => item.withTextKeys = .ok kept) items keptItems ∧
      sequence keptItems = kept := by
  simp only [← withTextKeysOfItems_eq_ok_iff]
  rw [withTextKeys]
  cases withTextKeysOfItems items <;> simp [Except.map]

theorem withTextKeys_mapping_eq_ok_iff : (mapping entries).withTextKeys = .ok kept ↔
    ∃ texts : List (String × Value), List.Forall₂ (fun entry e => entry.1.keyText? = some e.1 ∧
      entry.2.withTextKeys = .ok e.2) entries texts ∧ mapping (setEntries [] texts) = kept := by
  have hentries : (mapping entries).withTextKeys = .ok kept ↔
      ∃ result, withTextKeysOfEntries [] entries = .ok result ∧ mapping result = kept := by
    rw [withTextKeys]
    cases withTextKeysOfEntries [] entries <;> simp [Except.map]
  rw [hentries]
  simp only [withTextKeysOfEntries_eq_ok_iff]
  constructor
  · rintro ⟨_, ⟨texts, hall, rfl⟩, rfl⟩
    exact ⟨texts, hall, rfl⟩
  · rintro ⟨texts, hall, rfl⟩
    exact ⟨_, ⟨texts, hall, rfl⟩, rfl⟩

theorem map_some_of_forall₂ {texts : List (String × Value)} (h : List.Forall₂ (fun entry e =>
    entry.1.keyText? = some e.1 ∧ entry.2.withTextKeys = .ok e.2) entries texts) :
    (texts.map Prod.fst).map some = keyTexts entries := by
  induction h with
  | nil => rfl
  | cons hfirst hrest ih => rw [List.map_cons, List.map_cons, ih, ← hfirst.1, keyTexts, keyTexts, List.map_cons]

/-- The keys of entries all have texts. -/
def IsWritable (entries : List (Value × Value)) : Prop := ∀ entry ∈ entries, ¬ entry.1.IsUnwritable

theorem exists_keyText?_iff {key : Value} : (∃ text, key.keyText? = some text) ↔ ¬ key.IsUnwritable := by
  rw [← keyText?_eq_none_iff, ← Option.ne_none_iff_exists']

/-- There are texts for all keys exactly when every key of every mapping has one. -/
theorem exists_withTextKeys_iff (value : Value) :
    (∃ kept, value.withTextKeys = .ok kept) ↔ value.EveryMapping IsWritable := by
  induction value using parts_induction with
  | leaf value h => exact iff_of_true ⟨_, withTextKeys_leaf h⟩ (everyMapping_leaf h)
  | sequence items ih =>
    rw [everyMapping_sequence, ← forall₂_congr ih, ← exists_forall₂_iff]
    simp only [withTextKeys_sequence_eq_ok_iff]
    exact ⟨fun ⟨_, keptItems, hall, _⟩ => ⟨keptItems, hall⟩, fun ⟨keptItems, hall⟩ => ⟨_, keptItems, hall, rfl⟩⟩
  | mapping entries ih =>
    have hparts : (∃ texts : List (String × Value), List.Forall₂ (fun entry e => entry.1.keyText? = some e.1 ∧
        entry.2.withTextKeys = .ok e.2) entries texts) ↔
        ∀ entry ∈ entries, ¬ entry.1.IsUnwritable ∧ ∃ kept, entry.2.withTextKeys = .ok kept := by
      rw [exists_forall₂_iff]
      refine forall₂_congr fun entry _ => ?_
      rw [← exists_keyText?_iff]
      exact ⟨fun ⟨e, hkey, hvalue⟩ => ⟨⟨_, hkey⟩, _, hvalue⟩,
        fun ⟨⟨text, hkey⟩, kept, hvalue⟩ => ⟨(text, kept), hkey, hvalue⟩⟩
    rw [everyMapping_mapping, IsWritable, ← forall₂_congr ih, ← forall₂_and, ← hparts]
    simp only [withTextKeys_mapping_eq_ok_iff]
    exact ⟨fun ⟨_, texts, hall, _⟩ => ⟨texts, hall⟩, fun ⟨texts, hall⟩ => ⟨_, texts, hall, rfl⟩⟩
  | tagged tag value ih => rw [withTextKeys_tagged, everyMapping_tagged, ih]

end

/-! ## Keys that are told apart -/

/-- No key of entries is there twice. -/
structure HasDistinctKeys (entries : List (Value × Value)) : Prop where
  pairwise : entries.Pairwise fun earlier later => later.1.same earlier.1 = false
  isCanonical : ∀ entry ∈ entries, entry.1.IsCanonical

/-- No text among the keys of entries is the text of a flag or of a number among them. -/
def IsUnambiguous (entries : List (Value × Value)) : Prop :=
  ∀ first ∈ entries, ∀ second ∈ entries, first.1.IsText → ¬ second.1.IsText → first.1.keyText? ≠ second.1.keyText?

section

variable {value : Value} {items : List Value} {entries : List (Value × Value)}

/-- Different keys have different texts unless texts and others are mixed up. -/
theorem nodup_keyTexts_iff (hwritable : IsWritable entries) (hkeys : HasDistinctKeys entries) :
    (keyTexts entries).Nodup ↔ IsUnambiguous entries := by
  constructor
  · intro hnodup first hfirst second hsecond htext hother heq
    obtain rfl := List.inj_on_of_nodup_map hnodup hfirst hsecond heq
    exact hother htext
  · intro hclear
    refine List.pairwise_map.2 (hkeys.pairwise.imp_of_mem fun {first second} hfirst hsecond hsame heq => ?_)
    obtain ⟨text, htext⟩ := exists_keyText?_iff.2 (hwritable first hfirst)
    have hboth : first.1.IsText ↔ second.1.IsText := by
      constructor
      · intro h
        by_contra h'
        exact hclear first hfirst second hsecond h h' heq
      · intro h
        by_contra h'
        exact hclear second hsecond first hfirst h h' heq.symm
    have hkey := eq_of_keyText? (hkeys.isCanonical first hfirst) (hkeys.isCanonical second hsecond) htext
      (heq ▸ htext) hboth
    rw [← hkey, same_self htext] at hsame
    cases hsame

/-! ## Nothing is lost -/

mutual

/-- A value with the text of each key in its place, and with the content of each tag in its place. -/
def spelled : Value → Value
  | sequence items => sequence (spelledItems items)
  | mapping entries => mapping (spelledEntries entries)
  | tagged _ value => spelled value
  | other => other

def spelledItems : List Value → List Value
  | [] => []
  | item :: rest => spelled item :: spelledItems rest

def spelledEntries : List (Value × Value) → List (Value × Value)
  | [] => []
  | (key, value) :: rest => (string (key.keyText?.getD ""), spelled value) :: spelledEntries rest

end

theorem spelled_leaf (h : value.isLeaf = true) : value.spelled = value := by
  cases value with
  | sequence | mapping | tagged => cases h
  | _ => rfl

theorem spelledItems_eq_map (items : List Value) : spelledItems items = items.map spelled := by
  induction items with
  | nil => rfl
  | cons item rest ih => rw [spelledItems, ih, List.map_cons]

theorem spelledEntries_eq_withTexts (entries : List (Value × Value)) : spelledEntries entries =
    withTexts (entries.map fun entry => (entry.1.keyText?.getD "", entry.2.spelled)) := by
  induction entries with
  | nil => rfl
  | cons entry rest ih =>
    rw [spelledEntries, ih]
    rfl

/-- The values of which no mapping has a key twice, wherever it is. -/
def IsProper (value : Value) : Prop := value.EveryMapping HasDistinctKeys

/-- With texts for keys nothing is lost exactly when no mapping mixes up a text with another key. -/
theorem withTextKeys_eq_spelled_iff (hproper : value.IsProper) (hwritable : value.EveryMapping IsWritable) :
    value.withTextKeys = .ok value.spelled ↔ value.EveryMapping IsUnambiguous := by
  induction value using parts_induction with
  | leaf value h => exact iff_of_true (by rw [withTextKeys_leaf h, spelled_leaf h]) (everyMapping_leaf h)
  | sequence items ih =>
    rw [IsProper, everyMapping_sequence] at hproper
    rw [everyMapping_sequence] at hwritable ⊢
    rw [spelled, spelledItems_eq_map, withTextKeys_sequence_eq_ok_iff]
    simp only [sequence.injEq, exists_eq_right, List.forall₂_map_right_iff, List.forall₂_same]
    exact forall₂_congr fun item hitem => ih item hitem (hproper item hitem) (hwritable item hitem)
  | mapping entries ih =>
    rw [IsProper, everyMapping_mapping] at hproper
    rw [everyMapping_mapping] at hwritable ⊢
    rw [← nodup_keyTexts_iff hwritable.1 hproper.1, spelled, spelledEntries_eq_withTexts,
      withTextKeys_mapping_eq_ok_iff]
    have hkeys : ∀ entry ∈ entries, entry.1.keyText? = some (entry.1.keyText?.getD "") := by
      intro entry hentry
      obtain ⟨text, htext⟩ := exists_keyText?_iff.2 (hwritable.1 entry hentry)
      rw [htext, Option.getD_some]
    have hinner : (∀ entry ∈ entries, entry.2.EveryMapping IsUnambiguous) ↔
        ∀ entry ∈ entries, entry.2.withTextKeys = .ok entry.2.spelled :=
      forall₂_congr fun entry hentry => (ih entry hentry (hproper.2 entry hentry) (hwritable.2 entry hentry)).symm
    have hspelled : ((entries.map fun entry => (entry.1.keyText?.getD "", entry.2.spelled)).map Prod.fst).map some =
        keyTexts entries := by
      rw [List.map_map, List.map_map]
      exact List.map_congr_left fun entry hentry => (hkeys entry hentry).symm
    rw [hinner]
    constructor
    · rintro ⟨texts, hall, heq⟩
      have htexts := map_some_of_forall₂ hall
      have hsame := List.map_injective_iff.2 (Option.some_injective _) (hspelled.trans htexts.symm)
      obtain ⟨hnodup, rfl⟩ := (setEntries_eq_iff hsame).1 (mapping.inj heq)
      rw [List.forall₂_map_right_iff, List.forall₂_same] at hall
      exact ⟨htexts ▸ hnodup.map (Option.some_injective _), fun entry hentry => (hall entry hentry).2⟩
    · rintro ⟨hnodup, hvalues⟩
      refine ⟨_, ?_, congrArg mapping ((setEntries_eq_iff rfl).2 ⟨?_, rfl⟩)⟩
      · rw [List.forall₂_map_right_iff, List.forall₂_same]
        exact fun entry hentry => ⟨hkeys entry hentry, hvalues entry hentry⟩
      · rw [← hspelled] at hnodup
        exact hnodup.of_map
  | tagged tag value ih =>
    rw [withTextKeys_tagged, spelled, everyMapping_tagged]
    exact ih (everyMapping_tagged.1 hproper) (everyMapping_tagged.1 hwritable)

end

end ApiContract.Yaml.Value
