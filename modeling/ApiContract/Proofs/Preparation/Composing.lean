import ApiContract.Proofs.Preparation.Renaming

/-! # Compositions around an entry

Flattening an object first merges the fragments of its composition into it and then goes to its fields.
What is merged into an object on the way to the entry goes into the frame around the way.

* `composedFields?`, `flattenNode?_object`: flattening an object, in two steps.
* `exists_composedFields?`: a frame with fragments merged into it.
* `Renamed.flattenNode?`: an entry under another name stays that. -/

set_option autoImplicit false

namespace ApiContract

/-! ## Flattening in two steps -/

section

variable (document : Json) (depth : Nat) (followed : List String)

/-- The next fragment merged into what has been merged; the inner option is that of a merge that
failed. -/
def mergeFragment? (merged : Option Fields) (fragment : Json) : Option (Option Fields) :=
  match merged with
  | none => some none
  | some target =>
    (resolveFragment? document depth followed fragment).map fun resolved =>
      resolved.bind (mergeFields target)

/-- An object with its own composition merged into it. -/
def composedFields? (fields : Fields) : Option Fields :=
  match fields.get? "allOf" with
  | some (.array fragments) =>
    (fragments.foldlM (mergeFragment? document depth followed) (some (fields.erase "allOf"))).map
      fun flat => flat.getD fields
  | _ => some fields

/-- The value of a key, flattened unless it is data. -/
def flattenField? (key : String) (value : Json) : Option Json :=
  if isDataKeyword key then some value else flattenNode? document depth followed value

variable {document depth followed}

theorem flattenNode?_object (fields : Fields) :
    flattenNode? document (depth + 1) followed (.object fields) =
      (composedFields? document depth followed fields).bind fun keywords =>
        (Fields.mapValues? (flattenField? document depth followed) keywords).map .object := by
  have hparts : ∀ keywords : Fields,
      (keywords.mapM fun field =>
        if isDataKeyword field.1 then some field
        else (flattenNode? document depth followed field.2).map fun v => (field.1, v)) =
      Fields.mapValues? (flattenField? document depth followed) keywords := by
    intro keywords
    unfold Fields.mapValues? flattenField?
    congr 1
    funext field
    split <;> rfl
  rw [flattenNode?]
  unfold composedFields?
  cases hall : fields.get? "allOf" with
  | none => exact congrArg (Option.map Json.object) (hparts _)
  | some held =>
    cases held with
    | array fragments =>
      simp only
      rw [Option.bind_map, Option.bind_map]
      refine Option.bind_congr fun flat _ => ?_
      cases flat <;> exact congrArg (Option.map Json.object) (hparts _)
    | _ => exact congrArg (Option.map Json.object) (hparts _)

theorem flattenNode?_array (items : List Json) :
    flattenNode? document (depth + 1) followed (.array items) =
      (items.mapM (flattenNode? document depth followed)).map .array := rfl

theorem sameKind_of_flattenNode? {node flat : Json}
    (h : flattenNode? document depth followed node = some flat) : SameKind node flat := by
  cases depth with
  | zero => cases h
  | succ depth =>
    cases node with
    | object fields =>
      rw [flattenNode?_object, Option.bind_eq_some_iff] at h
      obtain ⟨keywords, -, h⟩ := h
      obtain ⟨results, -, rfl⟩ := Option.map_eq_some_iff.1 h
      exact .object ..
    | array items =>
      obtain ⟨results, -, rfl⟩ := Option.map_eq_some_iff.1 h
      exact .array ..
    | _ =>
      cases h
      exact .refl _

theorem sameKind_of_flattenField? (key : String) (value flat : Json)
    (h : flattenField? document depth followed key value = some flat) : SameKind value flat := by
  unfold flattenField? at h
  split at h
  · cases h
    exact .refl value
  · exact sameKind_of_flattenNode? h

theorem composedFields?_of_no_fragments {fields : Fields}
    (h : ∀ fragments, fields.get? "allOf" ≠ some (.array fragments)) :
    composedFields? document depth followed fields = some fields := by
  unfold composedFields?
  split
  · rename_i fragments hfragments
    exact absurd hfragments (h fragments)
  · rfl

theorem composedFields?_of_map {fields : Fields} (h : IsMap fields) :
    composedFields? document depth followed fields = some fields :=
  composedFields?_of_no_fragments h.fragments

end

/-! ## Merging in steps -/

theorem mergeFields_properties {target rest properties more : Fields}
    (h : (target.get? "properties").getD (.object []) = .object properties) :
    mergeFields target (("properties", .object more) :: rest) =
      mergeFields (target.insert "properties" (.object (mergeProperties properties more))) rest := by
  rw [mergeFields.eq_def]
  simp only [if_true, h]

theorem mergeFields_mismatch {target rest : Fields} {value : Json}
    (h : ∀ properties more : Fields, (target.get? "properties").getD (.object []) = .object properties →
      value = .object more → False) :
    mergeFields target (("properties", value) :: rest) = none := by
  rw [mergeFields, if_pos rfl]
  exact h

theorem mergeFields_keyword {target rest : Fields} {key : String} {value : Json}
    (h : key ≠ "properties") : mergeFields target ((key, value) :: rest) =
      (mergeKeyword target key value).bind fun merged => mergeFields merged rest := by
  rw [mergeFields.eq_def]
  simp only [h, if_false]

/-- A failed merge stays one. -/
theorem foldlM_mergeFragment?_none {document : Json} {depth : Nat} {followed : List String}
    (fragments : List Json) :
    fragments.foldlM (mergeFragment? document depth followed) none = some none := by
  induction fragments with
  | nil => rfl
  | cons fragment rest ih =>
    rw [List.foldlM_cons]
    exact ih

/-! ## Merging into a frame -/

section

variable {key : String}

theorem exists_mergeKeyword (frame : Frame key) (h : key ∉ walkedKeywords) (name : String)
    (merged : Json) : (∀ value, mergeKeyword (frame.fill value) name merged = none) ∨
      ∃ next : Frame key, ∀ value, mergeKeyword (frame.fill value) name merged = some (next.fill value) := by
  have hrequired : "required" ≠ key := fun heq => h (heq ▸ by decide)
  have htype : "type" ≠ key := fun heq => h (heq ▸ by decide)
  unfold mergeKeyword
  simp only [frame.get?_fill _ hrequired, frame.get?_fill _ htype]
  split
  · split
    · rename_i names more _
      obtain ⟨next, hnext⟩ := frame.exists_insert hrequired (.array (mergeRequired names more))
      exact .inr ⟨next, fun value => by rw [hnext]⟩
    · exact .inl fun _ => rfl
  · split
    · split
      · split
        · exact .inr ⟨frame, fun _ => rfl⟩
        · exact .inl fun _ => rfl
      · obtain ⟨next, hnext⟩ := frame.exists_insert htype merged
        exact .inr ⟨next, fun value => by rw [hnext]⟩
    · split
      · exact .inr ⟨frame, fun _ => rfl⟩
      · split
        · exact .inr ⟨frame, fun _ => rfl⟩
        · obtain ⟨next, hnext⟩ := frame.exists_insertIfAbsent name merged
          exact .inr ⟨next, fun value => by rw [hnext]⟩

theorem exists_mergeFields (frame : Frame key) (h : key ∉ walkedKeywords) (fragment : Fields) :
    (∀ value, mergeFields (frame.fill value) fragment = none) ∨
      ∃ next : Frame key, ∀ value, mergeFields (frame.fill value) fragment = some (next.fill value) := by
  have hproperties : "properties" ≠ key := fun heq => h (heq ▸ by decide)
  induction fragment generalizing frame with
  | nil => exact .inr ⟨frame, fun value => by rw [mergeFields]⟩
  | cons field rest ih =>
    obtain ⟨name, merged⟩ := field
    by_cases hname : name = "properties"
    · subst hname
      by_cases hobjects : ∃ properties more : Fields, (Fields.get? "properties"
          (frame.front ++ frame.back)).getD (.object []) = .object properties ∧ merged = .object more
      · obtain ⟨properties, more, hheld, rfl⟩ := hobjects
        obtain ⟨next, hnext⟩ := frame.exists_insert hproperties
          (.object (mergeProperties properties more))
        have hstep : ∀ value, mergeFields (frame.fill value) (("properties", .object more) :: rest) =
            mergeFields (next.fill value) rest := by
          intro value
          rw [← frame.get?_fill value hproperties] at hheld
          rw [mergeFields_properties hheld, hnext]
        simp only [hstep]
        exact ih next
      · refine .inl fun value => mergeFields_mismatch fun properties more hheld hmore => ?_
        rw [frame.get?_fill value hproperties] at hheld
        exact hobjects ⟨properties, more, hheld, hmore⟩
    · simp only [mergeFields_keyword hname]
      rcases exists_mergeKeyword frame h name merged with hnone | ⟨next, hnext⟩
      · exact .inl fun value => by rw [hnone, Option.bind_none]
      · simp only [hnext, Option.bind_some]
        exact ih next

section

variable {document : Json} {depth : Nat} {followed : List String}

/-- What a fragment does to a frame: the walk ends, or the fragment cannot be merged, or it is. -/
theorem exists_mergeFragment? (frame : Frame key) (h : key ∉ walkedKeywords) (fragment : Json) :
    (∀ value, mergeFragment? document depth followed (some (frame.fill value)) fragment = none) ∨
      (∀ value, mergeFragment? document depth followed (some (frame.fill value)) fragment = some none) ∨
      ∃ next : Frame key, ∀ value,
        mergeFragment? document depth followed (some (frame.fill value)) fragment =
          some (some (next.fill value)) := by
  cases hresolved : resolveFragment? document depth followed fragment with
  | none =>
    refine .inl fun value => ?_
    rw [mergeFragment?, hresolved]
    rfl
  | some resolved =>
    have hstep : ∀ value, mergeFragment? document depth followed (some (frame.fill value)) fragment =
        some (resolved.bind (mergeFields (frame.fill value))) := by
      intro value
      rw [mergeFragment?, hresolved]
      rfl
    simp only [hstep]
    cases resolved with
    | none => exact .inr (.inl fun _ => rfl)
    | some held =>
      rcases exists_mergeFields frame h held with hnone | ⟨next, hnext⟩
      · exact .inr (.inl fun value => congrArg some (hnone value))
      · exact .inr (.inr ⟨next, fun value => congrArg some (hnext value)⟩)

theorem exists_mergeFragments? (frame : Frame key) (h : key ∉ walkedKeywords) (fragments : List Json) :
    (∀ value, fragments.foldlM (mergeFragment? document depth followed) (some (frame.fill value)) =
      none) ∨
    (∀ value, fragments.foldlM (mergeFragment? document depth followed) (some (frame.fill value)) =
      some none) ∨
    ∃ next : Frame key, ∀ value,
      fragments.foldlM (mergeFragment? document depth followed) (some (frame.fill value)) =
        some (some (next.fill value)) := by
  induction fragments generalizing frame with
  | nil => exact .inr (.inr ⟨frame, fun _ => rfl⟩)
  | cons fragment rest ih =>
    simp only [List.foldlM_cons]
    rcases exists_mergeFragment? frame h fragment with hended | hfailed | ⟨next, hnext⟩
    · refine .inl fun value => ?_
      rw [hended]
      rfl
    · refine .inr (.inl fun value => ?_)
      rw [hfailed]
      exact foldlM_mergeFragment?_none rest
    · simp only [hnext]
      exact ih next

theorem exists_composedFields? (frame : Frame key) (h : key ∉ walkedKeywords) :
    (∀ value, composedFields? document depth followed (frame.fill value) = none) ∨
      ∃ next : Frame key, ∀ value,
        composedFields? document depth followed (frame.fill value) = some (next.fill value) := by
  have hall : "allOf" ≠ key := fun heq => h (heq ▸ by decide)
  unfold composedFields?
  simp only [frame.get?_fill _ hall]
  split
  · rename_i fragments _
    obtain ⟨rest, hrest⟩ := frame.exists_erase hall
    simp only [hrest]
    rcases exists_mergeFragments? rest h fragments with hended | hfailed | ⟨next, hnext⟩
    · exact .inl fun value => by rw [hended]; rfl
    · exact .inr ⟨frame, fun value => by rw [hfailed]; rfl⟩
    · exact .inr ⟨next, fun value => by rw [hnext]; rfl⟩
  · exact .inr ⟨frame, fun _ => rfl⟩

end

end

/-! ## Flattening -/

/-- The composition of an object on the way to the entry does not touch the way. -/
theorem flattened_frame {document : Json} {depth : Nat} {followed : List String} {step : Step}
    {left right : Json} (frame : Frame step.key) (hkept : step.Kept frame left right) :
    (composedFields? document depth followed (frame.fill left) = none ∧
      composedFields? document depth followed (frame.fill right) = none) ∨
    ∃ next : Frame step.key,
      composedFields? document depth followed (frame.fill left) = some (next.fill left) ∧
      composedFields? document depth followed (frame.fill right) = some (next.fill right) ∧
      step.Kept next left right := by
  rcases hkept with ⟨hkey, hall⟩ | hmaps
  · rcases exists_composedFields? frame hkey with hnone | ⟨next, hnext⟩
    · exact .inl ⟨hnone left, hnone right⟩
    · exact .inr ⟨next, hnext left, hnext right, .inl ⟨hkey, hall⟩⟩
  · exact .inr ⟨frame, composedFields?_of_map hmaps.left, composedFields?_of_map hmaps.right, .inr hmaps⟩

section

variable {first second : String} {document : Json} {depth : Nat} {followed : List String}

theorem flattenNode?_entry (hpasses : isDataKeyword first = isDataKeyword second) {others : Fields}
    {value : Json} (hfirst : others.get? first = none) (hsecond : others.get? second = none)
    (hleft : IsMap (others.insert first value)) (hright : IsMap (others.insert second value)) :
    Option.Rel (Renamed first second [])
      (flattenNode? document (depth + 1) followed (.object (others.insert first value)))
      (flattenNode? document (depth + 1) followed (.object (others.insert second value))) := by
  have hends : flattenField? document depth followed second value =
      flattenField? document depth followed first value := by
    rw [flattenField?, flattenField?, hpasses]
  have hone := Fields.mapValues?_insert (flattenField? document depth followed) value hfirst
  have htwo := Fields.mapValues?_insert (flattenField? document depth followed) value hsecond
  rw [hends] at htwo
  rw [flattenNode?_object, flattenNode?_object, composedFields?_of_map hleft,
    composedFields?_of_map hright, Option.bind_some, Option.bind_some, hone, htwo]
  cases hothers : Fields.mapValues? (flattenField? document depth followed) others with
  | none => exact .none
  | some results =>
    cases hvalue : flattenField? document depth followed first value with
    | none => exact .none
    | some result =>
      rw [hothers, hvalue] at hone htwo
      refine .some (.entry ?_ ?_ (hleft.mapValues? sameKind_of_flattenField? hone)
        (hright.mapValues? sameKind_of_flattenField? htwo))
      · rw [Fields.get?_of_mapValues? hothers, hfirst]
        rfl
      · rw [Fields.get?_of_mapValues? hothers, hsecond]
        rfl

theorem flattenNode?_step {step : Step} {steps : List Step} {left right : Json}
    (frame : Frame step.key) (hkept : step.Kept frame left right)
    (h : Option.Rel (Renamed first second steps) (flattenField? document depth followed step.key left)
      (flattenField? document depth followed step.key right)) :
    Option.Rel (Renamed first second (step :: steps))
      (flattenNode? document (depth + 1) followed (.object (frame.fill left)))
      (flattenNode? document (depth + 1) followed (.object (frame.fill right))) := by
  rw [flattenNode?_object, flattenNode?_object]
  rcases flattened_frame frame hkept with ⟨hone, htwo⟩ | ⟨next, hone, htwo, hnext⟩
  · rw [hone, htwo]
    exact .none
  · rw [hone, htwo, Option.bind_some, Option.bind_some]
    rcases next.exists_mapValues? (flattenField? document depth followed) with
      hnone | ⟨final, hkeys, hfinal⟩
    · rw [hnone, hnone]
      exact .none
    · have hone := hfinal left
      have htwo := hfinal right
      generalize flattenField? document depth followed step.key left = l at h hone
      generalize flattenField? document depth followed step.key right = r at h htwo
      rw [hone, htwo]
      cases h with
      | none => exact .none
      | some hrenamed =>
        refine .some (.step step final (hnext.imp_right fun hmaps => ?_) hrenamed)
        exact ⟨hmaps.left.mapValues? sameKind_of_flattenField? hone,
          hmaps.right.mapValues? sameKind_of_flattenField? htwo, hkeys ▸ hmaps.others⟩

end

theorem Renamed.flattenNode? {first second : String} {steps : List Step} {left right : Json}
    (hpasses : isDataKeyword first = isDataKeyword second) (document : Json)
    (h : Renamed first second steps left right) (depth : Nat) (followed : List String) :
    Option.Rel (Renamed first second steps) (flattenNode? document depth followed left)
      (flattenNode? document depth followed right) := by
  induction h generalizing depth with
  | entry hfirst hsecond hleft hright =>
    cases depth with
    | zero => exact .none
    | succ depth => exact flattenNode?_entry hpasses hfirst hsecond hleft hright
  | step step frame hkept h ih =>
    cases depth with
    | zero => exact .none
    | succ depth =>
      refine flattenNode?_step frame hkept ?_
      unfold flattenField?
      split
      · exact .some h
      · exact ih depth

end ApiContract
