import ApiContract.Definition.Basic
import ApiContract.Definition.Decode
import ApiContract.Proofs.Json.Frame

/-! # Records that are read

A record is read from an object, name by name, or from the list of its values. What every field keeps when it
stores a value is kept by the whole record, and a part that one field alone stores is told by that field.

* `decodeRecord_keeps`: an invariant of records, whichever way they are given.
* `view_of_decodeNamed`: a part that one field stores.
* `decodeRecord_object`, `decodeNamed_stored`: an object that is read name by name.
* `exists_field_of_decodeEntries`, `exists_item_of_decodeItems`: what tables and lists are read from. -/

set_option autoImplicit false

namespace ApiContract

/-! ## Outcomes -/

section

variable {ε α β : Type} {outcome : Except ε α} {result : β}

theorem exists_of_bind_ok {next : α → Except ε β} (h : (outcome >>= next) = .ok result) :
    ∃ value, outcome = .ok value ∧ next value = .ok result := by
  cases outcome with
  | error e => cases h
  | ok value => exact ⟨value, rfl, h⟩

theorem exists_of_map_ok {f : α → β} (h : outcome.map f = .ok result) :
    ∃ value, outcome = .ok value ∧ f value = result := by
  cases outcome with
  | error e => cases h
  | ok value => exact ⟨value, rfl, Except.ok.inj h⟩

end

/-! ## Fields -/

theorem Field.exists_of_defaulted {σ α : Type} {name : String} {decode : Json → Decoded α}
    {set : α → σ → σ} {value : Json} {before after : σ}
    (h : (Field.defaulted name decode set).store value before = .ok after) :
    ∃ x, decode value = .ok x ∧ after = set x before := by
  obtain ⟨x, hx, rfl⟩ := exists_of_map_ok h
  exact ⟨x, hx, rfl⟩

theorem Field.exists_of_needed {σ α : Type} {name : String} {decode : Json → Decoded α}
    {set : α → σ → σ} {value : Json} {before after : σ}
    (h : (Field.needed name decode set).store value before = .ok after) :
    ∃ x, decode value = .ok x ∧ after = set x before := by
  obtain ⟨x, hx, rfl⟩ := exists_of_map_ok h
  exact ⟨x, hx, rfl⟩

theorem Field.store_defaulted {σ α : Type} {name : String} {decode : Json → Decoded α} {set : α → σ → σ}
    {value : Json} {x : α} (h : decode value = .ok x) (record : σ) :
    (Field.defaulted name decode set).store value record = .ok (set x record) :=
  congrArg (Except.map fun y => set y record) h

theorem Field.store_needed {σ α : Type} {name : String} {decode : Json → Decoded α} {set : α → σ → σ}
    {value : Json} {x : α} (h : decode value = .ok x) (record : σ) :
    (Field.needed name decode set).store value record = .ok (set x record) :=
  congrArg (Except.map fun y => set y record) h

/-! ## Objects -/

section

variable {σ : Type} {fields : List (Field σ)} {type : String} {start record next : σ} {given : Fields}

theorem decodeNamed_of_decodeRecord (h : decodeRecord fields type start (.object given) = .ok record) :
    decodeNamed fields start given = .ok record := by
  rw [decodeRecord] at h
  split at h
  · cases h
  · rename_i held hheld
    split at h
    · cases h
    · cases h
      exact hheld

/-- Where nothing is missing, an object is read name by name. -/
theorem decodeRecord_object (hmissing : firstMissing? fields given = none) :
    decodeRecord fields type start (.object given) = decodeNamed fields start given := by
  rw [decodeRecord, hmissing]
  cases decodeNamed fields start given <;> rfl

/-- The first value of an object is stored by the field of its name. -/
theorem decodeNamed_stored {field : Field σ} {name : String} {value : Json} {rest : Fields}
    (hfield : fields.find? (·.name == name) = some field) (hstore : field.store value start = .ok next) :
    decodeNamed fields start ((name, value) :: rest) = decodeNamed fields next rest := by
  rw [decodeNamed, hfield]
  simp only [hstore]

end

/-! ## What fields keep -/

section

variable {σ : Type} {fields : List (Field σ)} {p : Json → Prop} (inv : σ → Prop) {start record : σ}

/-- What every field keeps when it stores a value is kept by a whole record. -/
theorem decodeNamed_keeps
    (hstore : ∀ field ∈ fields, ∀ value a b, p value → inv a → field.store value a = .ok b → inv b)
    {given : Fields} (hgiven : ∀ entry ∈ given, p entry.2) (hstart : inv start)
    (h : decodeNamed fields start given = .ok record) : inv record := by
  induction given generalizing start with
  | nil =>
    cases h
    exact hstart
  | cons entry rest ih =>
    obtain ⟨name, value⟩ := entry
    rw [List.forall_mem_cons] at hgiven
    rw [decodeNamed] at h
    cases hfound : fields.find? (·.name == name) with
    | none =>
      rw [hfound] at h
      exact ih hgiven.2 hstart h
    | some field =>
      rw [hfound] at h
      cases hnext : field.store value start with
      | error e =>
        simp only [hnext] at h
        cases h
      | ok next =>
        simp only [hnext] at h
        have hfield := List.mem_of_find?_eq_some hfound
        exact ih hgiven.2 (hstore field hfield value start next hgiven.1 hstart hnext) h

theorem decodePositional_keeps {expected : String} {total place : Nat}
    (hstore : ∀ field ∈ fields, ∀ value a b, p value → inv a → field.store value a = .ok b → inv b)
    {items : List Json} (hitems : ∀ item ∈ items, p item) (hstart : inv start)
    (h : decodePositional expected total fields place start items = .ok record) : inv record := by
  induction fields generalizing place start items with
  | nil =>
    cases items with
    | nil =>
      cases h
      exact hstart
    | cons item rest => cases h
  | cons field others ih =>
    rw [List.forall_mem_cons] at hstore
    cases items with
    | nil =>
      rw [decodePositional] at h
      split at h
      · cases h
      · exact ih hstore.2 hitems hstart h
    | cons item rest =>
      rw [List.forall_mem_cons] at hitems
      rw [decodePositional] at h
      cases hnext : field.store item start with
      | error e =>
        rw [hnext] at h
        cases h
      | ok next =>
        rw [hnext] at h
        exact ih hstore.2 hitems.2 (hstore.1 item start next hitems.1 hstart hnext) h

theorem decodeRecord_keeps {type : String} {value : Json} (hordered : value.ordered = true)
    (hstore : ∀ field ∈ fields, ∀ value a b, value.ordered = true → inv a →
      field.store value a = .ok b → inv b)
    (hstart : inv start) (h : decodeRecord fields type start value = .ok record) : inv record := by
  cases value with
  | object given =>
    exact decodeNamed_keeps inv hstore (Json.ordered_object.1 hordered).2 hstart (decodeNamed_of_decodeRecord h)
  | array items => exact decodePositional_keeps inv hstore (Json.ordered_array.1 hordered) hstart h
  | _ => cases h

end

/-! ## What one field stores -/

section

variable {σ β : Type} {fields : List (Field σ)} {start record : σ} {name : String} {field : Field σ}
  {view : σ → β} {given : Fields}

theorem view_of_absent (hothers : ∀ other ∈ fields, other.name ≠ name → ∀ value a b,
      other.store value a = .ok b → view b = view a)
    (habsent : ∀ entry ∈ given, entry.1 ≠ name) (h : decodeNamed fields start given = .ok record) :
    view record = view start := by
  induction given generalizing start with
  | nil =>
    cases h
    rfl
  | cons entry rest ih =>
    obtain ⟨key, value⟩ := entry
    rw [List.forall_mem_cons] at habsent
    rw [decodeNamed] at h
    cases hfound : fields.find? (·.name == key) with
    | none =>
      rw [hfound] at h
      exact ih habsent.2 h
    | some other =>
      rw [hfound] at h
      have hname : other.name = key := eq_of_beq (List.find?_some (p := fun f : Field σ => f.name == key) hfound)
      cases hnext : other.store value start with
      | error e =>
        simp only [hnext] at h
        cases h
      | ok next =>
        simp only [hnext] at h
        rw [ih habsent.2 h]
        exact hothers other (List.mem_of_find?_eq_some hfound) (hname ▸ habsent.1) value start next hnext

theorem view_of_get? (hfield : fields.find? (·.name == name) = some field)
    (hothers : ∀ other ∈ fields, other.name ≠ name → ∀ value a b,
      other.store value a = .ok b → view b = view a)
    (hordered : given.Ordered) {value : Json} (hvalue : given.get? name = some value)
    (h : decodeNamed fields start given = .ok record) :
    ∃ a b, field.store value a = .ok b ∧ view record = view b := by
  induction given generalizing start with
  | nil => cases hvalue
  | cons entry rest ih =>
    obtain ⟨key, held⟩ := entry
    obtain ⟨hfirst, hrest⟩ := Fields.ordered_cons.1 hordered
    rw [Fields.get?_cons] at hvalue
    rw [decodeNamed] at h
    by_cases hkey : key = name
    · subst hkey
      rw [if_pos rfl, Option.some.injEq] at hvalue
      subst hvalue
      rw [hfield] at h
      cases hnext : field.store held start with
      | error e =>
        simp only [hnext] at h
        cases h
      | ok next =>
        simp only [hnext] at h
        refine ⟨start, next, hnext, view_of_absent hothers (fun entry hentry heq => ?_) h⟩
        exact String.lt_irrefl _ (heq ▸ hfirst entry hentry)
    · rw [if_neg hkey] at hvalue
      split at h
      · exact ih hrest hvalue h
      · split at h
        · cases h
        · exact ih hrest hvalue h

/-- A part of a record that one field alone stores is as it was, or what that field stores of its value. -/
theorem view_of_decodeNamed (hfield : fields.find? (·.name == name) = some field)
    (hothers : ∀ other ∈ fields, other.name ≠ name → ∀ value a b,
      other.store value a = .ok b → view b = view a)
    (hordered : given.Ordered) (h : decodeNamed fields start given = .ok record) :
    (given.get? name = none ∧ view record = view start) ∨
      ∃ value a b, given.get? name = some value ∧ field.store value a = .ok b ∧ view record = view b := by
  cases hvalue : given.get? name with
  | none => exact .inl ⟨rfl, view_of_absent hothers (Fields.get?_eq_none_iff.1 hvalue) h⟩
  | some value =>
    obtain ⟨a, b, hstore, hview⟩ := view_of_get? hfield hothers hordered hvalue h
    exact .inr ⟨value, a, b, rfl, hstore, hview⟩

end

/-! ## Tables and lists -/

section

variable {α : Type} {decode : Json → Decoded α}

theorem decodeEntries_cons (key : String) (value : Json) (rest : Fields) :
    decodeEntries decode ((key, value) :: rest) =
      (decode value).bind fun item => (decodeEntries decode rest).map ((key, item) :: ·) := by
  rw [decodeEntries]
  cases decode value <;> rfl

theorem decodeItems_cons (item : Json) (rest : List Json) :
    decodeItems decode (item :: rest) =
      (decode item).bind fun value => (decodeItems decode rest).map (value :: ·) := by
  rw [decodeItems]
  cases decode item <;> rfl

theorem keys_of_decodeEntries {fields : Fields} {table : Table α}
    (h : decodeEntries decode fields = .ok table) : table.map Prod.fst = fields.map Prod.fst := by
  induction fields generalizing table with
  | nil =>
    cases h
    rfl
  | cons field rest ih =>
    rw [decodeEntries_cons] at h
    obtain ⟨item, -, h⟩ := exists_of_bind_ok h
    obtain ⟨others, hothers, rfl⟩ := exists_of_map_ok h
    rw [List.map_cons, List.map_cons, ih hothers]

theorem exists_field_of_decodeEntries {fields : Fields} {table : Table α}
    (h : decodeEntries decode fields = .ok table) :
    ∀ entry ∈ table, ∃ field ∈ fields, decode field.2 = .ok entry.2 := by
  induction fields generalizing table with
  | nil =>
    cases h
    exact nofun
  | cons field rest ih =>
    rw [decodeEntries_cons] at h
    obtain ⟨item, hitem, h⟩ := exists_of_bind_ok h
    obtain ⟨others, hothers, rfl⟩ := exists_of_map_ok h
    refine List.forall_mem_cons.2 ⟨⟨field, List.mem_cons_self .., hitem⟩, fun other hother => ?_⟩
    obtain ⟨given, hgiven, hread⟩ := ih hothers other hother
    exact ⟨given, List.mem_cons_of_mem _ hgiven, hread⟩

theorem exists_item_of_decodeItems {items : List Json} {values : List α}
    (h : decodeItems decode items = .ok values) :
    ∀ value ∈ values, ∃ item ∈ items, decode item = .ok value := by
  induction items generalizing values with
  | nil =>
    cases h
    exact nofun
  | cons item rest ih =>
    rw [decodeItems_cons] at h
    obtain ⟨value, hvalue, h⟩ := exists_of_bind_ok h
    obtain ⟨others, hothers, rfl⟩ := exists_of_map_ok h
    refine List.forall_mem_cons.2 ⟨⟨item, List.mem_cons_self .., hvalue⟩, fun other hother => ?_⟩
    obtain ⟨given, hgiven, hread⟩ := ih hothers other hother
    exact ⟨given, List.mem_cons_of_mem _ hgiven, hread⟩

theorem decodeTable_any (fields : Fields) : decodeTable decodeAny (.object fields) = .ok fields := by
  show decodeEntries decodeAny fields = .ok fields
  induction fields with
  | nil => rfl
  | cons field rest ih =>
    obtain ⟨key, value⟩ := field
    rw [decodeEntries_cons, ih]
    rfl

end

theorem decodeItems_any (items : List Json) : decodeItems decodeAny items = .ok items := by
  induction items with
  | nil => rfl
  | cons item rest ih =>
    rw [decodeItems_cons, ih]
    rfl

end ApiContract
