import ApiContract.Proofs.Json.Parts

/-! # Frames

An object with one value taken out, to be filled with any value. What is done to the other keys of the
object is done to the frame, whatever fills it.

* `Frame`, `Frame.fill`: the fields around one key.
* `Fields.insert_of_lt`, `Fields.insert_of_gt`, `Fields.ofList_of_ordered`: where a field is inserted.
* `Frame.exists_insert`, `Frame.exists_erase`, `Frame.exists_map`: filled frames stay filled frames.
* `Fields.map_insert`, `Fields.mapValues?_insert`, `Fields.perm_insert`: what an inserted field adds. -/

set_option autoImplicit false

namespace ApiContract

/-! ## Inserted fields -/

namespace Fields

variable {key other : String} {value : Json} {fields : Fields}

theorem get?_append (front back : Fields) :
    get? key (front ++ back) = (get? key front).or (get? key back) := by
  induction front with
  | nil => rw [List.nil_append, get?_nil, Option.none_or]
  | cons field rest ih =>
    rw [List.cons_append, get?_cons, get?_cons, ih]
    by_cases hk : field.1 = key
    · rw [if_pos hk, if_pos hk, Option.some_or]
    · rw [if_neg hk, if_neg hk]

theorem get?_eq_none_iff : get? key fields = none ↔ ∀ field ∈ fields, field.1 ≠ key := by
  induction fields with
  | nil => simp
  | cons field rest ih =>
    rw [get?_cons, List.forall_mem_cons, ← ih]
    by_cases hk : field.1 = key
    · simp [hk]
    · simp [hk]

/-- A key of ordered fields occurs once. -/
theorem get?_rest_eq_none {value : Json} {rest : Fields} (h : Ordered ((key, value) :: rest)) :
    get? key rest = none :=
  get?_eq_none_iff.2 fun field hfield heq =>
    String.lt_irrefl _ (heq ▸ (ordered_cons.1 h).1 field hfield)

/-- Fields put together are those that were given, by key. -/
theorem get?_ofList_of_ordered (h : fields.Ordered) (key : String) :
    (ofList fields).get? key = fields.get? key := by
  have hfold : ∀ start : Fields, Fields.get? key (fields.foldl
      (fun (all : Fields) field => all.insert field.1 field.2) start) =
        (fields.get? key).or (start.get? key) := by
    induction fields with
    | nil => exact fun _ => rfl
    | cons field rest ih =>
      obtain ⟨-, hrest⟩ := ordered_cons.1 h
      intro start
      rw [List.foldl_cons, ih hrest, get?_insert, get?_cons]
      by_cases hkey : field.1 = key
      · subst hkey
        rw [if_pos rfl, if_pos rfl, get?_rest_eq_none h, Option.none_or, Option.some_or]
      · rw [if_neg hkey, if_neg hkey]
  rw [ofList, hfold, get?_nil, Option.or_none]

theorem insert_nil (key : String) (value : Json) : insert key value [] = [(key, value)] := rfl

theorem insert_of_lt {first : Json} {rest : Fields} (h : key < other) :
    insert key value ((other, first) :: rest) = (key, value) :: (other, first) :: rest := by
  have hne : ¬ (other == key) = true := fun heq => String.lt_irrefl _ (eq_of_beq heq ▸ h)
  rw [insert, if_neg hne, if_pos h]

theorem insert_of_gt {first : Json} {rest : Fields} (h : other < key) :
    insert key value ((other, first) :: rest) = (other, first) :: insert key value rest := by
  have hne : ¬ (other == key) = true := fun heq => String.lt_irrefl _ (eq_of_beq heq ▸ h)
  rw [insert, if_neg hne, if_neg (String.lt_asymm h)]

theorem ordered_ofList (entries : List (String × Json)) : (ofList entries).Ordered := by
  have hfold : ∀ start : Fields, start.Ordered →
      (entries.foldl (fun (all : Fields) entry => all.insert entry.1 entry.2) start).Ordered := by
    induction entries with
    | nil => exact fun _ hstart => hstart
    | cons entry rest ih => exact fun start hstart => ih _ (hstart.insert entry.1 entry.2)
  exact hfold [] ordered_nil

/-- Fields in the order of their keys are not moved. -/
theorem ofList_of_ordered (h : fields.Ordered) : ofList fields = fields :=
  (ordered_ofList fields).ext h (get?_ofList_of_ordered h)

theorem perm_insert (value : Json) (h : get? key fields = none) :
    (insert key value fields).Perm ((key, value) :: fields) := by
  induction fields with
  | nil => exact List.Perm.refl _
  | cons field rest ih =>
    obtain ⟨k, v⟩ := field
    rw [get?_cons] at h
    by_cases hk : k = key
    · rw [if_pos hk] at h
      cases h
    · rw [if_neg hk] at h
      by_cases hlt : key < k
      · simp only [insert, beq_iff_eq, hk, if_false, hlt, if_true]
        exact List.Perm.refl _
      · simp only [insert, beq_iff_eq, hk, if_false, hlt]
        exact ((ih h).cons (k, v)).trans (List.Perm.swap ..)

/-- A function of the single fields acts on an inserted one as on the others. -/
theorem map_insert (g : String → Json → Json) :
    (insert key value fields).map (fun field => (field.1, g field.1 field.2)) =
      insert key (g key value) (fields.map fun field => (field.1, g field.1 field.2)) := by
  induction fields with
  | nil => rfl
  | cons field rest ih =>
    obtain ⟨k, v⟩ := field
    by_cases hk : k = key
    · simp [insert, hk]
    · by_cases hlt : key < k
      · simp [insert, hk, hlt]
      · simp [insert, hk, hlt, ih]

theorem get?_map (g : String → Json → Json) :
    get? key (fields.map fun field => (field.1, g field.1 field.2)) =
      (get? key fields).map (g key) := by
  induction fields with
  | nil => rfl
  | cons field rest ih =>
    rw [List.map_cons, get?_cons, get?_cons, ih]
    by_cases hk : field.1 = key
    · rw [if_pos hk, if_pos hk, hk]
      rfl
    · rw [if_neg hk, if_neg hk]

/-- A function of the single fields that may fail. -/
def mapValues? (g : String → Json → Option Json) (fields : Fields) : Option Fields :=
  fields.mapM fun field => (g field.1 field.2).map fun result => (field.1, result)

theorem mapValues?_cons (g : String → Json → Option Json) (key : String) (value : Json)
    (rest : Fields) : mapValues? g ((key, value) :: rest) =
      (g key value).bind fun result => (mapValues? g rest).map fun others => (key, result) :: others := by
  unfold mapValues?
  rw [List.mapM_cons]
  cases g key value with
  | none => rfl
  | some result =>
    cases hrest : rest.mapM fun field => (g field.1 field.2).map fun result => (field.1, result) <;> rfl

theorem get?_of_mapValues? {g : String → Json → Option Json} {results : Fields}
    (h : mapValues? g fields = some results) : get? key results = (get? key fields).bind (g key) := by
  induction fields generalizing results with
  | nil =>
    cases h
    rfl
  | cons field rest ih =>
    obtain ⟨k, v⟩ := field
    rw [mapValues?_cons, Option.bind_eq_some_iff] at h
    obtain ⟨result, hresult, hrest⟩ := h
    obtain ⟨others, hothers, rfl⟩ := Option.map_eq_some_iff.1 hrest
    rw [get?_cons, get?_cons]
    by_cases hk : k = key
    · rw [if_pos hk, if_pos hk, Option.bind_some, ← hk, hresult]
    · rw [if_neg hk, if_neg hk, ih hothers]

theorem exists_of_mapValues? {g : String → Json → Option Json} {results : Fields} {value : Json}
    (h : mapValues? g fields = some results) (hvalue : get? key fields = some value) :
    ∃ result, g key value = some result ∧ get? key results = some result := by
  induction fields generalizing results with
  | nil => cases hvalue
  | cons field rest ih =>
    obtain ⟨k, v⟩ := field
    rw [mapValues?_cons, Option.bind_eq_some_iff] at h
    obtain ⟨result, hresult, hrest⟩ := h
    obtain ⟨others, hothers, rfl⟩ := Option.map_eq_some_iff.1 hrest
    rw [get?_cons] at hvalue ⊢
    by_cases hk : k = key
    · rw [if_pos hk, Option.some.injEq] at hvalue
      subst hk hvalue
      exact ⟨result, hresult, if_pos rfl⟩
    · rw [if_neg hk] at hvalue ⊢
      exact ih hothers hvalue

theorem keys_of_mapValues? {g : String → Json → Option Json} {results : Fields}
    (h : mapValues? g fields = some results) : results.map Prod.fst = fields.map Prod.fst := by
  induction fields generalizing results with
  | nil =>
    cases h
    rfl
  | cons field rest ih =>
    obtain ⟨k, v⟩ := field
    rw [mapValues?_cons, Option.bind_eq_some_iff] at h
    obtain ⟨result, hresult, hrest⟩ := h
    obtain ⟨others, hothers, rfl⟩ := Option.map_eq_some_iff.1 hrest
    rw [List.map_cons, List.map_cons, ih hothers]

theorem mapValues?_insert (g : String → Json → Option Json) (value : Json)
    (h : get? key fields = none) :
    mapValues? g (insert key value fields) =
      (mapValues? g fields).bind fun others =>
        (g key value).map fun result => insert key result others := by
  induction fields with
  | nil =>
    rw [insert, mapValues?_cons]
    cases g key value <;> rfl
  | cons field rest ih =>
    obtain ⟨k, v⟩ := field
    rw [get?_cons] at h
    by_cases hk : k = key
    · rw [if_pos hk] at h
      cases h
    · rw [if_neg hk] at h
      by_cases hlt : key < k
      · have hinsert : ∀ w (others : Fields), insert key w ((k, v) :: others) = (key, w) :: (k, v) :: others := by
          intro w others
          simp [insert, hk, hlt]
        rw [hinsert, mapValues?_cons, mapValues?_cons]
        cases g key value with
        | none => cases g k v <;> simp
        | some result =>
          cases g k v with
          | none => rfl
          | some own => cases mapValues? g rest <;> simp [insert, hk, hlt]
      · have hinsert : insert key value ((k, v) :: rest) = (k, v) :: insert key value rest := by
          simp [insert, hk, hlt]
        rw [hinsert, mapValues?_cons, mapValues?_cons, ih h]
        cases g k v with
        | none => rfl
        | some own =>
          cases mapValues? g rest with
          | none => rfl
          | some others => cases g key value <;> simp [insert, hk, hlt]

end Fields

/-! ## Frames -/

/-- The fields of an object around one key. -/
structure Frame (key : String) where
  front : Fields
  back : Fields
  front_free : ∀ field ∈ front, field.1 ≠ key
  back_free : ∀ field ∈ back, field.1 ≠ key

namespace Frame

variable {key other : String}

/-- The object of a frame. -/
def fill (frame : Frame key) (value : Json) : Fields := frame.front ++ (key, value) :: frame.back

/-- The keys around the one of a frame. -/
def otherKeys (frame : Frame key) : List String := (frame.front ++ frame.back).map Prod.fst

theorem get?_fill_self (frame : Frame key) (value : Json) :
    (frame.fill value).get? key = some value := by
  rw [fill, Fields.get?_append, Fields.get?_eq_none_iff.2 frame.front_free, Option.none_or,
    Fields.get?_cons, if_pos rfl]

theorem get?_fill (frame : Frame key) (value : Json) (h : other ≠ key) :
    (frame.fill value).get? other = Fields.get? other (frame.front ++ frame.back) := by
  rw [fill, Fields.get?_append, Fields.get?_append, Fields.get?_cons, if_neg (Ne.symm h)]

theorem hasKey_fill (frame : Frame key) (value another : Json) :
    (frame.fill value).hasKey other = (frame.fill another).hasKey other := by
  unfold Fields.hasKey
  by_cases h : other = key
  · rw [h, get?_fill_self, get?_fill_self]
    rfl
  · rw [get?_fill _ _ h, get?_fill _ _ h]

theorem mem_fill {frame : Frame key} {value : Json} {field : String × Json} :
    field ∈ frame.fill value ↔ field = (key, value) ∨ field ∈ frame.front ++ frame.back := by
  rw [fill, List.mem_append, List.mem_cons, List.mem_append]
  exact or_left_comm

theorem flatMap_fill {α : Type} (frame : Frame key) (value : Json) (f : String × Json → List α) :
    (frame.fill value).flatMap f =
      frame.front.flatMap f ++ (f (key, value) ++ frame.back.flatMap f) := by
  rw [fill, List.flatMap_append, List.flatMap_cons]

/-- Taking the value of a key out of an object. -/
theorem exists_of_get? {fields : Fields} {value : Json} (ho : fields.Ordered)
    (h : fields.get? key = some value) : ∃ frame : Frame key, fields = frame.fill value := by
  obtain ⟨front, back, rfl⟩ := List.append_of_mem (Fields.mem_of_get? h)
  have hkeys := ho
  rw [Fields.Ordered, List.map_append, List.pairwise_append] at hkeys
  obtain ⟨-, hback, hcross⟩ := hkeys
  rw [List.map_cons, List.pairwise_cons] at hback
  refine ⟨⟨front, back, fun field hfield heq => ?_, fun field hfield heq => ?_⟩, rfl⟩
  · have hlt := hcross field.1 (List.mem_map_of_mem hfield) key (List.mem_cons_self ..)
    rw [heq] at hlt
    exact String.lt_irrefl _ hlt
  · have hlt := hback.1 field.1 (List.mem_map_of_mem hfield)
    rw [heq] at hlt
    exact String.lt_irrefl _ hlt

/-! ## Work on the other keys -/

theorem exists_insert (frame : Frame key) (h : other ≠ key) (added : Json) :
    ∃ next : Frame key, ∀ value, (frame.fill value).insert other added = next.fill value := by
  obtain ⟨front, back, hfront, hback⟩ := frame
  induction front with
  | nil =>
    by_cases hlt : other < key
    · refine ⟨⟨[(other, added)], back, ?_, hback⟩, fun value => ?_⟩
      · rintro field (_ | ⟨_, ⟨⟩⟩)
        exact h
      · simp [fill, Fields.insert, Ne.symm h, hlt]
    · refine ⟨⟨[], back.insert other added, by simp, fun field hfield => ?_⟩, fun value => ?_⟩
      · rcases Fields.mem_insert hfield with rfl | hold
        · exact h
        · exact hback field hold
      · simp [fill, Fields.insert, Ne.symm h, hlt]
  | cons field rest ih =>
    obtain ⟨k, v⟩ := field
    obtain ⟨hk, hrest⟩ := List.forall_mem_cons.1 hfront
    by_cases heq : k = other
    · refine ⟨⟨(other, added) :: rest, back, ?_, hback⟩, fun value => ?_⟩
      · exact List.forall_mem_cons.2 ⟨h, hrest⟩
      · simp [fill, Fields.insert, heq]
    · by_cases hlt : other < k
      · refine ⟨⟨(other, added) :: (k, v) :: rest, back, ?_, hback⟩, fun value => ?_⟩
        · exact List.forall_mem_cons.2 ⟨h, hfront⟩
        · simp [fill, Fields.insert, heq, hlt]
      · obtain ⟨next, hnext⟩ := ih hrest
        refine ⟨⟨(k, v) :: next.front, next.back, ?_, next.back_free⟩, fun value => ?_⟩
        · exact List.forall_mem_cons.2 ⟨hk, next.front_free⟩
        · have hvalue := hnext value
          simp only [fill] at hvalue
          simp [fill, Fields.insert, heq, hlt, hvalue]

theorem exists_erase (frame : Frame key) (h : other ≠ key) :
    ∃ next : Frame key, ∀ value, (frame.fill value).erase other = next.fill value := by
  refine ⟨⟨frame.front.erase other, frame.back.erase other, ?_, ?_⟩, fun value => ?_⟩
  · exact fun field hfield => frame.front_free field (List.mem_filter.1 hfield).1
  · exact fun field hfield => frame.back_free field (List.mem_filter.1 hfield).1
  · simp [fill, Fields.erase, Ne.symm h]

theorem exists_insertIfAbsent (frame : Frame key) (other : String) (added : Json) :
    ∃ next : Frame key, ∀ value,
      (frame.fill value).insertIfAbsent other added = next.fill value := by
  cases hkey : (frame.fill .null).hasKey other with
  | true =>
    refine ⟨frame, fun value => ?_⟩
    rw [Fields.insertIfAbsent, hasKey_fill frame value .null, hkey, if_pos rfl]
  | false =>
    have hne : other ≠ key := by
      rintro rfl
      rw [Fields.hasKey, get?_fill_self] at hkey
      cases hkey
    obtain ⟨next, hnext⟩ := frame.exists_insert hne added
    refine ⟨next, fun value => ?_⟩
    rw [Fields.insertIfAbsent, hasKey_fill frame value .null, hkey, if_neg (by simp), hnext]

/-- A function of the single fields acts on what fills a frame as on the other fields. -/
theorem exists_map (frame : Frame key) (g : String → Json → Json) :
    ∃ next : Frame key, next.otherKeys = frame.otherKeys ∧ ∀ value,
      (frame.fill value).map (fun field => (field.1, g field.1 field.2)) =
        next.fill (g key value) := by
  refine ⟨⟨frame.front.map fun field => (field.1, g field.1 field.2),
    frame.back.map fun field => (field.1, g field.1 field.2), ?_, ?_⟩, ?_, fun value => ?_⟩
  · exact List.forall_mem_map.2 frame.front_free
  · exact List.forall_mem_map.2 frame.back_free
  · simp [otherKeys, Function.comp_def]
  · simp [fill]

theorem exists_mapValues? (frame : Frame key) (g : String → Json → Option Json) :
    (∀ value, Fields.mapValues? g (frame.fill value) = none) ∨
      ∃ next : Frame key, next.otherKeys = frame.otherKeys ∧ ∀ value,
        Fields.mapValues? g (frame.fill value) = (g key value).map next.fill := by
  obtain ⟨front, back, hfront, hback⟩ := frame
  induction front with
  | nil =>
    cases hmapped : Fields.mapValues? g back with
    | none =>
      refine .inl fun value => ?_
      rw [fill, List.nil_append, Fields.mapValues?_cons, hmapped]
      cases g key value <;> rfl
    | some results =>
      have hfree : ∀ field ∈ results, field.1 ≠ key := by
        rw [← Fields.get?_eq_none_iff, Fields.get?_of_mapValues? hmapped,
          Fields.get?_eq_none_iff.2 hback]
        rfl
      refine .inr ⟨⟨[], results, by simp, hfree⟩, Fields.keys_of_mapValues? hmapped, fun value => ?_⟩
      rw [fill, List.nil_append, Fields.mapValues?_cons, hmapped]
      cases g key value <;> rfl
  | cons field rest ih =>
    obtain ⟨k, v⟩ := field
    obtain ⟨hk, hrest⟩ := List.forall_mem_cons.1 hfront
    have hfill : ∀ value, fill ⟨(k, v) :: rest, back, hfront, hback⟩ value =
        (k, v) :: fill ⟨rest, back, hrest, hback⟩ value := fun _ => rfl
    cases hown : g k v with
    | none =>
      refine .inl fun value => ?_
      rw [hfill, Fields.mapValues?_cons, hown]
      rfl
    | some own =>
      rcases ih hrest with hnone | ⟨next, hkeys, hnext⟩
      · refine .inl fun value => ?_
        rw [hfill, Fields.mapValues?_cons, hown, hnone]
        rfl
      · refine .inr ⟨⟨(k, own) :: next.front, next.back,
          List.forall_mem_cons.2 ⟨hk, next.front_free⟩, next.back_free⟩,
          congrArg (k :: ·) hkeys, fun value => ?_⟩
        rw [hfill, Fields.mapValues?_cons, hown, hnext]
        cases g key value <;> rfl

end Frame

end ApiContract
