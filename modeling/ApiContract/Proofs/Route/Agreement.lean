import ApiContract.Definition.Reading
import ApiContract.Proofs.Definition.Records
import Mathlib.Data.List.Forall2

/-! # Outcomes that agree

Two outcomes agree if both are failures, whatever they tell, or both are results and these are related.

* `Agree`, with `Agree.bind`, `Agree.map`: the relation along a computation.
* `agree_perm`: results of the items of a list.
* `decodeRecord_agree`: records read from objects that differ in the value of one key.
* `decodeTable_agree`: tables read from objects that differ in the name of one entry. -/

set_option autoImplicit false

namespace ApiContract

/-- Both outcomes are failures, or both are results that are related. -/
inductive Agree {ε α β : Type} (r : α → β → Prop) : Except ε α → Except ε β → Prop where
  | error (e f : ε) : Agree r (.error e) (.error f)
  | ok {a : α} {b : β} (h : r a b) : Agree r (.ok a) (.ok b)

section

variable {ε α β γ δ : Type} {r : α → β → Prop} {q : γ → δ → Prop} {x : Except ε α} {y : Except ε β}

theorem Agree.refl {r : α → α → Prop} (h : ∀ a, r a a) (x : Except ε α) : Agree r x x := by
  cases x with
  | error e => exact .error e e
  | ok a => exact .ok (h a)

theorem Agree.mono {q : α → β → Prop} (h : Agree r x y) (hrq : ∀ a b, r a b → q a b) : Agree q x y := by
  cases h with
  | error e f => exact .error e f
  | ok h => exact .ok (hrq _ _ h)

theorem Agree.trans {s : β → γ → Prop} {z : Except ε γ} (h : Agree r x y) (hnext : Agree s y z) :
    Agree (fun a c => ∃ b, r a b ∧ s b c) x z := by
  cases h with
  | error e f =>
    cases hnext with
    | error _ g => exact .error e g
  | ok h =>
    cases hnext with
    | ok hs => exact .ok ⟨_, h, hs⟩

theorem Agree.bind {f : α → Except ε γ} {g : β → Except ε δ} (h : Agree r x y)
    (hfg : ∀ a b, r a b → Agree q (f a) (g b)) : Agree q (x.bind f) (y.bind g) := by
  cases h with
  | error e f => exact .error e f
  | ok h => exact hfg _ _ h

theorem Agree.bind_same {z : Except ε α} {f : α → Except ε γ} {g : α → Except ε δ}
    (hfg : ∀ a, Agree q (f a) (g a)) : Agree q (z.bind f) (z.bind g) := by
  cases z with
  | error e => exact .error e e
  | ok a => exact hfg a

theorem Agree.map {f : α → γ} {g : β → δ} (h : Agree r x y) (hfg : ∀ a b, r a b → q (f a) (g b)) :
    Agree q (x.map f) (y.map g) := by
  cases h with
  | error e f => exact .error e f
  | ok h => exact .ok (hfg _ _ h)

theorem Agree.mapError {η : Type} {f g : ε → η} (h : Agree r x y) :
    Agree r (x.mapError f) (y.mapError g) := by
  cases h with
  | error e e' => exact .error (f e) (g e')
  | ok h => exact .ok h

end

/-- What is made of a list item by item, the results one behind the other, depends on the order of the
items in the order of the results only. -/
theorem agree_perm {ε α β : Type} (own : α → Except ε (List β)) {all : List α → Except ε (List β)}
    (hnil : all [] = .ok []) (hcons : ∀ item rest, all (item :: rest) =
      (own item).bind fun front => (all rest).map (front ++ ·))
    {items given : List α} (h : items.Perm given) : Agree List.Perm (all items) (all given) := by
  induction h with
  | nil =>
    rw [hnil]
    exact .ok (List.Perm.refl _)
  | cons item _ ih =>
    rw [hcons, hcons]
    exact Agree.bind_same fun front => ih.map fun _ _ hrest => hrest.append_left front
  | swap one other rest =>
    rw [hcons, hcons, hcons, hcons]
    cases own one with
    | error e => cases own other <;> exact .error _ _
    | ok front =>
      cases own other with
      | error e => exact .error _ _
      | ok second =>
        cases all rest with
        | error e => exact .error _ _
        | ok others =>
          refine .ok ?_
          show (second ++ (front ++ others)).Perm (front ++ (second ++ others))
          rw [← List.append_assoc, ← List.append_assoc]
          exact List.perm_append_comm.append_right others
  | trans _ _ ihone ihtwo =>
    exact (ihone.trans ihtwo).mono fun _ _ ⟨_, hone, htwo⟩ => hone.trans htwo

/-! ## Records -/

section

variable {σ : Type} {fields : List (Field σ)} {key : String} {r : σ → σ → Prop}

theorem decodeNamed_append (record : σ) (front back : Fields) :
    decodeNamed fields record (front ++ back) =
      (decodeNamed fields record front).bind fun next => decodeNamed fields next back := by
  induction front generalizing record with
  | nil => rfl
  | cons given rest ih =>
    obtain ⟨name, value⟩ := given
    rw [List.cons_append, decodeNamed, decodeNamed]
    cases fields.find? (·.name == name) with
    | none => exact ih record
    | some field =>
      cases hstore : field.store value record with
      | error e => simp only [hstore]; rfl
      | ok next =>
        simp only [hstore]
        exact ih next

theorem decodeNamed_agree (hstore : ∀ field ∈ fields, field.name ≠ key → ∀ value a b, r a b →
      Agree r (field.store value a) (field.store value b))
    {given : Fields} (hfree : ∀ entry ∈ given, entry.1 ≠ key) {a b : σ} (h : r a b) :
    Agree r (decodeNamed fields a given) (decodeNamed fields b given) := by
  induction given generalizing a b with
  | nil => exact .ok h
  | cons entry rest ih =>
    obtain ⟨name, value⟩ := entry
    rw [List.forall_mem_cons] at hfree
    rw [decodeNamed, decodeNamed]
    cases hfound : fields.find? (·.name == name) with
    | none => exact ih hfree.2 h
    | some field =>
      have hname : field.name ≠ key := by
        have hown := List.find?_some hfound
        rw [eq_of_beq hown]
        exact hfree.1
      have hstored := hstore field (List.mem_of_find?_eq_some hfound) hname value a b h
      simp only
      generalize field.store value a = x at hstored ⊢
      generalize field.store value b = y at hstored ⊢
      cases hstored with
      | error e f => exact .error e f
      | ok hnext => exact ih hfree.2 hnext

/-- Records of objects that differ in one field, whose value both can be stored or none, and which the
other fields do not look at. -/
theorem decodeRecord_agree {type : String} {start : σ} (frame : Frame key) {left right : Json}
    {field : Field σ} (hfield : fields.find? (·.name == key) = some field)
    (hthere : ∀ record, Agree r (field.store left record) (field.store right record))
    (hothers : ∀ other ∈ fields, other.name ≠ key → ∀ value a b, r a b →
      Agree r (other.store value a) (other.store value b)) :
    Agree r (decodeRecord fields type start (.object (frame.fill left)))
      (decodeRecord fields type start (.object (frame.fill right))) := by
  have hnamed : Agree r (decodeNamed fields start (frame.fill left))
      (decodeNamed fields start (frame.fill right)) := by
    rw [Frame.fill, Frame.fill, decodeNamed_append, decodeNamed_append]
    cases decodeNamed fields start frame.front with
    | error e => exact .error e e
    | ok record =>
      show Agree r (decodeNamed fields record ((key, left) :: frame.back))
        (decodeNamed fields record ((key, right) :: frame.back))
      rw [decodeNamed, decodeNamed, hfield]
      have hstored := hthere record
      simp only
      generalize field.store left record = x at hstored ⊢
      generalize field.store right record = y at hstored ⊢
      cases hstored with
      | error e f => exact .error e f
      | ok h => exact decodeNamed_agree hothers frame.back_free h
  have hmissing : firstMissing? fields (frame.fill left) = firstMissing? fields (frame.fill right) := by
    unfold firstMissing?
    congr 1
    funext other
    rw [frame.hasKey_fill left right]
  rw [decodeRecord, decodeRecord, hmissing]
  generalize decodeNamed fields start (frame.fill left) = x at hnamed ⊢
  generalize decodeNamed fields start (frame.fill right) = y at hnamed ⊢
  cases hnamed with
  | error e f => exact .error e f
  | ok h =>
    simp only
    cases firstMissing? fields (frame.fill right) with
    | none => exact .ok h
    | some missing => exact .error _ _

end

theorem Field.defaulted_agree {σ α : Type} {name : String} {decode : Json → Decoded α}
    {set : α → σ → σ} {r : σ → σ → Prop} {a b : σ} (h : ∀ x, r (set x a) (set x b)) (value : Json) :
    Agree r ((Field.defaulted name decode set).store value a)
      ((Field.defaulted name decode set).store value b) :=
  (Agree.refl (r := fun x y => x = y) (fun _ => rfl) (decode value)).map fun x _ hxy => hxy ▸ h x

/-! ## Tables -/

section

variable {α : Type} {decode : Json → Decoded α}

/-- The order of entries does not matter for whether they can be read. -/
theorem decodeEntries_perm (decode : Json → Decoded α) {fields given : Fields}
    (h : fields.Perm given) :
    Agree List.Perm (decodeEntries decode fields) (decodeEntries decode given) := by
  refine agree_perm (fun field : String × Json => (decode field.2).map fun item => [(field.1, item)])
    rfl ?_ h
  intro field rest
  rw [decodeEntries_cons]
  cases decode field.2 <;> rfl

/-- Two tables that differ in the name of one entry. -/
def SameButName {α : Type} (first second : String) (left right : Table α) : Prop :=
  ∃ (item : α) (others : Table α), left.Perm ((first, item) :: others) ∧
    right.Perm ((second, item) :: others) ∧
      ∀ entry ∈ others, entry.1 ≠ first ∧ entry.1 ≠ second

theorem decodeTable_agree {first second : String} {value : Json} {others : Fields}
    (hfirst : others.get? first = none) (hsecond : others.get? second = none) :
    Agree (SameButName first second) (decodeTable decode (.object (others.insert first value)))
      (decodeTable decode (.object (others.insert second value))) := by
  have hone := decodeEntries_perm decode (Fields.perm_insert value hfirst)
  have htwo := decodeEntries_perm decode (Fields.perm_insert value hsecond).symm
  have hmiddle : Agree (fun left right => ∃ (item : α) (rest : Table α), left = (first, item) :: rest ∧
      right = (second, item) :: rest ∧ ∀ entry ∈ rest, entry.1 ≠ first ∧ entry.1 ≠ second)
      (decodeEntries decode ((first, value) :: others))
      (decodeEntries decode ((second, value) :: others)) := by
    rw [decodeEntries_cons, decodeEntries_cons]
    cases decode value with
    | error e => exact .error _ _
    | ok item =>
      cases hrest : decodeEntries decode others with
      | error e => exact .error _ _
      | ok rest =>
        refine .ok ⟨item, rest, rfl, rfl, fun entry hentry => ?_⟩
        have hkey : entry.1 ∈ others.map Prod.fst := by
          rw [← keys_of_decodeEntries hrest]
          exact List.mem_map_of_mem hentry
        obtain ⟨field, hfield, hname⟩ := List.mem_map.1 hkey
        rw [← hname]
        exact ⟨Fields.get?_eq_none_iff.1 hfirst field hfield,
          Fields.get?_eq_none_iff.1 hsecond field hfield⟩
  refine ((hone.trans hmiddle).trans htwo).mono fun left right h => ?_
  obtain ⟨_, ⟨_, hleft, item, rest, rfl, rfl, hfree⟩, hright⟩ := h
  exact ⟨item, rest, hleft, hright.symm, hfree⟩

end

end ApiContract
