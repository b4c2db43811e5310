import ApiContract.Proofs.Json.Parts
import ApiContract.Proofs.Preparation.Keeping
import ApiContract.Proofs.Preparation.Merging

/-! # Merged compositions

A composition is merged fragment by fragment and each fragment key by key. What comes of a key depends on
nothing but what the schema and its fragments have under this key, so that it can be told for each key on
its own.

* `Json.same_of_same`: values that equal one value equal each other.
* `mergedValue?`, `mergeFields_eq_some`: one fragment, key by key.
* `foldlM_mergeFields_eq_some`: fragments in order, key by key.
* `IsMergeOf`, `Unmergeable`: what comes of a composition, and what stands in its way.
* `mergeComposition?_spec`: a composition of a document. -/

set_option autoImplicit false

namespace ApiContract

/-! ## Equal values -/

theorem Number.same_of_same {a b c : Number} (hab : a.same b = true) (hac : a.same c = true) :
    b.same c = true := by
  cases a <;> cases b <;> cases c <;>
    simp only [Number.same, Bool.false_eq_true, Bool.or_eq_true, Bool.and_eq_true, beq_iff_eq] at *
  · exact hab.symm.trans hac
  · rcases hab with ⟨ha, hb⟩ | rfl
    · rcases hac with ⟨-, hc⟩ | rfl
      · exact .inl ⟨hb, hc⟩
      · exact .inl ⟨hb, ha⟩
    · exact hac

namespace Json

theorem sameItems_of_sameItems {items : List Json} (ih : ∀ item ∈ items, ∀ b c : Json,
      item.same b = true → item.same c = true → b.same c = true) {left right : List Json}
    (hleft : sameItems items left = true) (hright : sameItems items right = true) :
    sameItems left right = true := by
  induction items generalizing left right with
  | nil =>
    cases left <;> cases right <;> simp_all [sameItems]
  | cons item rest ihrest =>
    rw [List.forall_mem_cons] at ih
    cases left with
    | nil => cases hleft
    | cons b bs =>
      cases right with
      | nil => cases hright
      | cons c cs =>
        rw [sameItems, Bool.and_eq_true] at hleft hright ⊢
        exact ⟨ih.1 b c hleft.1 hright.1, ihrest ih.2 hleft.2 hright.2⟩

theorem sameFields_of_sameFields {fields : Fields} (ih : ∀ field ∈ fields, ∀ b c : Json,
      field.2.same b = true → field.2.same c = true → b.same c = true) {left right : Fields}
    (hleft : sameFields fields left = true) (hright : sameFields fields right = true) :
    sameFields left right = true := by
  induction fields generalizing left right with
  | nil =>
    cases left <;> cases right <;> simp_all [sameFields]
  | cons field rest ihrest =>
    obtain ⟨key, value⟩ := field
    rw [List.forall_mem_cons] at ih
    cases left with
    | nil => cases hleft
    | cons first bs =>
      cases right with
      | nil => cases hright
      | cons second cs =>
        obtain ⟨k, b⟩ := first
        obtain ⟨l, c⟩ := second
        rw [sameFields, Bool.and_eq_true, Bool.and_eq_true, beq_iff_eq] at hleft hright ⊢
        exact ⟨⟨hleft.1.1.symm.trans hright.1.1, ih.1 b c hleft.1.2 hright.1.2⟩,
          ihrest ih.2 hleft.2 hright.2⟩

/-- Values that equal one value equal each other. -/
theorem same_of_same {a b c : Json} (hab : a.same b = true) (hac : a.same c = true) :
    b.same c = true := by
  induction a using Json.partsInduction generalizing b c with
  | object fields ih =>
    cases b <;> cases c <;> simp only [same, Bool.false_eq_true] at hab hac ⊢
    exact sameFields_of_sameFields (fun field hfield _ _ => ih field hfield) hab hac
  | array items ih =>
    cases b <;> cases c <;> simp only [same, Bool.false_eq_true] at hab hac ⊢
    exact sameItems_of_sameItems (fun item hitem _ _ => ih item hitem) hab hac
  | plain value hobject harray =>
    cases value with
    | object fields => exact absurd rfl (hobject fields)
    | array items => exact absurd rfl (harray items)
    | number n =>
      cases b <;> cases c <;> simp only [same, Bool.false_eq_true] at hab hac ⊢
      exact Number.same_of_same hab hac
    | _ => cases b <;> cases c <;> simp_all [same]

end Json

/-! ## One key -/

/-- Two values joined by what is read of them; none when one of them cannot be read. What is not there
counts as empty. -/
def joined? {α : Type} (read? : Json → Option α) (write : α → Json) (join : α → α → α) (empty : α)
    (own : Option Json) (value : Json) : Option (Option Json) :=
  match read? (own.getD (write empty)), read? value with
  | some held, some more => some (some (write (join held more)))
  | _, _ => none

/-- Whether a value of a fragment is left out when it is merged. -/
def isLeftOut (key : String) (value : Json) : Bool :=
  key = "discriminator" || key = "additionalProperties" && value.same (.bool false)

/-- What a key of a schema becomes when a fragment has a value under it; none when the two do not fit
together. -/
def mergedValue? (key : String) (own : Option Json) (value : Json) : Option (Option Json) :=
  if key = "properties" then joined? Json.fields? .object mergeProperties [] own value
  else if key = "required" then joined? Json.items? .array mergeRequired [] own value
  else if key = "type" then
    match own with
    | some type => if type.same value then some (some type) else none
    | none => some (some value)
  else if isLeftOut key value then some own
  else some (some (own.getD value))

/-- One key of a fragment merged into a schema. -/
def mergeField? (target : Fields) (key : String) (value : Json) : Option Fields :=
  if key = "properties" then
    match (target.get? "properties").getD (.object []), value with
    | .object properties, .object more =>
      some (target.insert "properties" (.object (mergeProperties properties more)))
    | _, _ => none
  else mergeKeyword target key value

section

variable {target fragment merged rest : Fields} {key other : String} {value : Json}

theorem mergeFields_cons :
    mergeFields target ((key, value) :: rest) =
      (mergeField? target key value).bind fun next => mergeFields next rest := by
  unfold mergeField?
  by_cases hkey : key = "properties"
  · subst hkey
    rw [if_pos rfl]
    split
    · rename_i properties more hheld
      rw [mergeFields_properties hheld, Option.bind_some]
    · rename_i hmismatch
      rw [mergeFields_mismatch hmismatch, Option.bind_none]
  · rw [if_neg hkey, mergeFields_keyword hkey]

theorem get?_mergeField?_of_ne (hother : other ≠ key) (h : mergeField? target key value = some merged) :
    merged.get? other = target.get? other := by
  unfold mergeField? at h
  split at h
  · rename_i hkey
    subst hkey
    split at h
    · cases h
      rw [Fields.get?_insert, if_neg hother.symm]
    · cases h
  · exact get?_mergeKeyword_of_ne hother h

theorem map_mergeKeyword (hkey : key ≠ "properties") :
    (mergeKeyword target key value).map (Fields.get? key) = mergedValue? key (target.get? key) value := by
  have hinserted : ∀ given : Json, Fields.get? key (target.insert key given) = some given :=
    fun given => by rw [Fields.get?_insert, if_pos rfl]
  unfold mergeKeyword mergedValue?
  rw [if_neg hkey]
  by_cases hrequired : key = "required"
  · subst hrequired
    rw [if_pos rfl, if_pos rfl, joined?]
    generalize (target.get? "required").getD (.array []) = held
    cases held <;> cases value <;> first | rfl | exact congrArg some (hinserted _)
  · rw [if_neg hrequired, if_neg hrequired]
    by_cases htype : key = "type"
    · subst htype
      rw [if_pos rfl, if_pos rfl]
      cases htype : target.get? "type" with
      | none => exact congrArg some (hinserted value)
      | some type =>
        dsimp only
        split
        · exact congrArg some htype
        · rfl
    · rw [if_neg htype, if_neg htype, isLeftOut]
      by_cases hdiscriminator : key = "discriminator"
      · rw [if_pos hdiscriminator, decide_eq_true hdiscriminator, Bool.true_or, if_pos rfl]
        rfl
      · rw [if_neg hdiscriminator, decide_eq_false hdiscriminator, Bool.false_or]
        by_cases hclosed : (decide (key = "additionalProperties") && value.same (.bool false)) = true
        · rw [if_pos hclosed, if_pos hclosed]
          rfl
        · rw [if_neg hclosed, if_neg hclosed, Option.map_some, Fields.get?_insertIfAbsent, if_pos rfl]

theorem map_mergeField? : (mergeField? target key value).map (Fields.get? key) =
    mergedValue? key (target.get? key) value := by
  unfold mergeField?
  by_cases hkey : key = "properties"
  · subst hkey
    have hinserted : ∀ given : Json, Fields.get? "properties" (target.insert "properties" given) =
        some given := fun given => by rw [Fields.get?_insert, if_pos rfl]
    unfold mergedValue?
    rw [if_pos rfl, if_pos rfl, joined?]
    generalize (target.get? "properties").getD (.object []) = held
    cases held <;> cases value <;> first | rfl | exact congrArg some (hinserted _)
  · rw [if_neg hkey, map_mergeKeyword hkey]

/-! ## One fragment -/

/-- Merging a fragment does to each key what the value under it asks for. -/
theorem mergeFields_eq_some (hfragment : fragment.Ordered) (h : mergeFields target fragment = some merged)
    (key : String) : (fragment.get? key).toList.foldlM (mergedValue? key) (target.get? key) =
      some (merged.get? key) := by
  induction fragment generalizing target with
  | nil =>
    rw [mergeFields] at h
    cases h
    rfl
  | cons field rest ih =>
    obtain ⟨name, value⟩ := field
    obtain ⟨-, hrest⟩ := Fields.ordered_cons.1 hfragment
    have hnew := Fields.get?_rest_eq_none hfragment
    rw [mergeFields_cons, Option.bind_eq_some_iff] at h
    obtain ⟨next, hnext, hmerged⟩ := h
    have hlater := ih hrest hmerged
    rw [Fields.get?_cons]
    by_cases hkey : name = key
    -- the first field is the only one under its key, so the others leave what it makes of that
    · subst hkey
      have hstep : (mergeField? target name value).map (Fields.get? name) =
          mergedValue? name (target.get? name) value := map_mergeField?
      rw [hnext, Option.map_some] at hstep
      rw [hnew] at hlater
      rw [if_pos rfl, Option.toList_some, List.foldlM_cons, ← hstep]
      exact hlater
    · rw [if_neg hkey, ← get?_mergeField?_of_ne (Ne.symm hkey) hnext]
      exact hlater

theorem exists_of_mergeFields_eq_none (hfragment : fragment.Ordered)
    (h : mergeFields target fragment = none) :
    ∃ key, (fragment.get? key).toList.foldlM (mergedValue? key) (target.get? key) = none := by
  induction fragment generalizing target with
  | nil =>
    rw [mergeFields] at h
    cases h
  | cons field rest ih =>
    obtain ⟨name, value⟩ := field
    obtain ⟨-, hrest⟩ := Fields.ordered_cons.1 hfragment
    have hnew := Fields.get?_rest_eq_none hfragment
    rw [mergeFields_cons, Option.bind_eq_none_iff] at h
    cases hnext : mergeField? target name value with
    | none =>
      refine ⟨name, ?_⟩
      rw [Fields.get?_cons, if_pos rfl, Option.toList_some, List.foldlM_cons, ← map_mergeField?, hnext]
      rfl
    | some next =>
      obtain ⟨key, hkey⟩ := ih hrest (h next hnext)
      have hother : name ≠ key := by
        rintro rfl
        rw [hnew] at hkey
        cases hkey
      refine ⟨key, ?_⟩
      rw [Fields.get?_cons, if_neg hother, ← get?_mergeField?_of_ne (Ne.symm hother) hnext, hkey]

/-! ## Fragments in order -/

/-- The values that schemas have under a key, in order. -/
def valuesOf (key : String) (schemas : List Fields) : List Json :=
  schemas.flatMap fun schema => (schema.get? key).toList

theorem valuesOf_cons (schema : Fields) (schemas : List Fields) :
    valuesOf key (schema :: schemas) = (schema.get? key).toList ++ valuesOf key schemas := rfl

variable {own : Fields} {fragments : List Fields}

theorem foldlM_mergeFields_eq_some (hfragments : ∀ fragment ∈ fragments, fragment.Ordered)
    (h : fragments.foldlM mergeFields own = some merged) (key : String) :
    (valuesOf key fragments).foldlM (mergedValue? key) (own.get? key) = some (merged.get? key) := by
  induction fragments generalizing own with
  | nil =>
    cases h
    rfl
  | cons fragment rest ih =>
    rw [List.forall_mem_cons] at hfragments
    rw [List.foldlM_cons] at h
    obtain ⟨next, hnext, hmerged⟩ := Option.bind_eq_some_iff.1 h
    rw [valuesOf_cons, List.foldlM_append, mergeFields_eq_some hfragments.1 hnext]
    exact ih hfragments.2 hmerged

theorem exists_of_foldlM_mergeFields_eq_none (hfragments : ∀ fragment ∈ fragments, fragment.Ordered)
    (h : fragments.foldlM mergeFields own = none) :
    ∃ key, (valuesOf key fragments).foldlM (mergedValue? key) (own.get? key) = none := by
  induction fragments generalizing own with
  | nil => cases h
  | cons fragment rest ih =>
    rw [List.forall_mem_cons] at hfragments
    rw [List.foldlM_cons] at h
    cases hnext : mergeFields own fragment with
    | none =>
      obtain ⟨key, hkey⟩ := exists_of_mergeFields_eq_none hfragments.1 hnext
      refine ⟨key, ?_⟩
      rw [valuesOf_cons, List.foldlM_append, hkey]
      rfl
    | some next =>
      rw [hnext] at h
      obtain ⟨key, hkey⟩ := ih hfragments.2 h
      refine ⟨key, ?_⟩
      rw [valuesOf_cons, List.foldlM_append, mergeFields_eq_some hfragments.1 hnext]
      exact hkey

end

/-! ## Values in order -/

section

variable {α : Type} {read? : Json → Option α} {write : α → Json} {join : α → α → α} {empty : α}
  {own result : Option Json} {values : List Json} {key : String}

/-- Values that can all be read are joined in order. -/
theorem foldlM_joined? (hread : ∀ a, read? (write a) = some a) {held : α}
    (hheld : read? (own.getD (write empty)) = some held) (hvalues : values ≠ [])
    (hall : ∀ value ∈ values, (read? value).isSome = true) :
    values.foldlM (joined? read? write join empty) own =
      some (some (write ((values.filterMap read?).foldl join held))) := by
  induction values generalizing own held with
  | nil => exact absurd rfl hvalues
  | cons value rest ih =>
    rw [List.forall_mem_cons] at hall
    obtain ⟨more, hmore⟩ := Option.isSome_iff_exists.1 hall.1
    have hstep : joined? read? write join empty own value = some (some (write (join held more))) := by
      rw [joined?, hheld, hmore]
    rw [List.foldlM_cons, hstep, List.filterMap_cons_some hmore, List.foldl_cons]
    cases rest with
    | nil => rfl
    | cons next others => exact ih (hread _) (List.cons_ne_nil _ _) hall.2

theorem readable_of_foldlM_joined? (h : values.foldlM (joined? read? write join empty) own = some result)
    (hvalues : values ≠ []) : ∃ held, read? (own.getD (write empty)) = some held ∧
      ∀ value ∈ values, (read? value).isSome = true := by
  induction values generalizing own with
  | nil => exact absurd rfl hvalues
  | cons value rest ih =>
    rw [List.foldlM_cons] at h
    obtain ⟨next, hnext, hrest⟩ := Option.bind_eq_some_iff.1 h
    unfold joined? at hnext
    split at hnext
    · rename_i held more hheld hmore
      rw [List.forall_mem_cons, hmore]
      refine ⟨held, hheld, rfl, ?_⟩
      cases rest with
      | nil => exact fun _ hvalue => absurd hvalue List.not_mem_nil
      | cons other others =>
        obtain ⟨-, -, hall⟩ := ih hrest (List.cons_ne_nil _ _)
        exact hall
    · cases hnext

/-- Values are only joined if all of them can be read, what is there already too. -/
theorem exists_of_foldlM_joined? (hread : ∀ a, read? (write a) = some a)
    (h : values.foldlM (joined? read? write join empty) own = some result) (hvalues : values ≠ []) :
    (∀ value ∈ own.toList ++ values, (read? value).isSome = true) ∧
      ∃ held, read? (own.getD (write empty)) = some held ∧
        result = some (write ((values.filterMap read?).foldl join held)) := by
  obtain ⟨held, hheld, hall⟩ := readable_of_foldlM_joined? h hvalues
  rw [foldlM_joined? hread hheld hvalues hall, Option.some.injEq] at h
  refine ⟨fun value hvalue => ?_, held, hheld, h.symm⟩
  rcases List.mem_append.1 hvalue with hown | hmore
  · rw [Option.mem_toList.1 hown, Option.getD_some] at hheld
    rw [hheld]
    rfl
  · exact hall value hmore

/-- Where values cannot be joined, one of them cannot be read. -/
theorem exists_of_foldlM_joined?_eq_none (hread : ∀ a, read? (write a) = some a)
    (h : values.foldlM (joined? read? write join empty) own = none) :
    values ≠ [] ∧ ∃ value ∈ own.toList ++ values, read? value = none := by
  have hvalues : values ≠ [] := by
    rintro rfl
    cases h
  refine ⟨hvalues, ?_⟩
  by_cases hall : ∀ value ∈ own.toList ++ values, (read? value).isSome = true
  · have hheld : ∃ held, read? (own.getD (write empty)) = some held := by
      cases own with
      | none => exact ⟨empty, hread empty⟩
      | some value => exact Option.isSome_iff_exists.1 (hall value (List.mem_cons_self ..))
    obtain ⟨held, hheld⟩ := hheld
    rw [foldlM_joined? hread hheld hvalues fun value hvalue => hall value (List.mem_append_right _ hvalue)] at h
    cases h
  · simpa only [Classical.not_forall, Option.not_isSome_iff_eq_none, exists_prop] using hall

theorem foldlM_mergedType? {type : Json} :
    values.foldlM (mergedValue? "type") (some type) =
      if values.all type.same = true then some (some type) else none := by
  induction values with
  | nil => rfl
  | cons value rest ih =>
    have hstep : mergedValue? "type" (some type) value =
        if type.same value = true then some (some type) else none := rfl
    rw [List.foldlM_cons, hstep, List.all_cons]
    by_cases hsame : type.same value = true
    · rw [if_pos hsame, hsame, Bool.true_and, ← ih]
      rfl
    · rw [if_neg hsame, Bool.eq_false_iff.2 hsame, Bool.false_and, if_neg Bool.false_ne_true]
      rfl

/-- Types are all the same if and only if the first equals the others. -/
theorem pairwise_same_cons_iff {type : Json} :
    (type :: values).Pairwise (fun a b => a.same b = true) ↔ values.all type.same = true := by
  rw [List.pairwise_cons, List.all_eq_true]
  refine and_iff_left_of_imp fun hfirst => List.pairwise_iff_forall_sublist.2 fun hsublist => ?_
  have hmem := hsublist.subset
  exact Json.same_of_same (hfirst _ (hmem (by simp))) (hfirst _ (hmem (by simp)))

/-- A type is merged if all that declare one declare the same, and it is the first of them. -/
theorem foldlM_mergedType?_eq_some_iff :
    values.foldlM (mergedValue? "type") own = some result ↔
      (own.toList ++ values).Pairwise (fun a b => a.same b = true) ∧ result = (own.toList ++ values).head? := by
  have hstart : ∀ (type : Json) (others : List Json),
      others.foldlM (mergedValue? "type") (some type) = some result ↔
        (type :: others).Pairwise (fun a b => a.same b = true) ∧ result = some type := by
    intro type others
    rw [foldlM_mergedType?, pairwise_same_cons_iff]
    by_cases hall : others.all type.same = true
    · rw [if_pos hall, Option.some.injEq]
      exact ⟨fun h => ⟨hall, h.symm⟩, fun h => h.2.symm⟩
    · rw [if_neg hall]
      exact ⟨nofun, fun h => absurd h.1 hall⟩
  cases own with
  | some type => exact hstart type values
  | none =>
    cases values with
    | nil => exact ⟨fun h => ⟨List.Pairwise.nil, (Option.some.inj h).symm⟩, fun h => congrArg some h.2.symm⟩
    | cons first rest => exact hstart first rest

/-- The keywords that are merged in a way of their own. -/
def joinedKeywords : List String := ["properties", "required", "type"]

/-- Any other key has the value that comes first, of those that are not left out. -/
theorem foldlM_mergedValue?_of_not_mem (hkey : key ∉ joinedKeywords) :
    values.foldlM (mergedValue? key) own = some (own.or (values.find? fun value => !isLeftOut key value)) := by
  simp only [joinedKeywords, List.mem_cons, List.not_mem_nil, or_false, not_or] at hkey
  obtain ⟨hproperties, hrequired, htype⟩ := hkey
  induction values generalizing own with
  | nil =>
    rw [List.find?_nil, Option.or_none]
    rfl
  | cons value rest ih =>
    have hstep : mergedValue? key own value =
        some (if isLeftOut key value = true then own else some (own.getD value)) := by
      unfold mergedValue?
      rw [if_neg hproperties, if_neg hrequired, if_neg htype]
      split <;> rfl
    rw [List.foldlM_cons, hstep, List.find?_cons]
    by_cases hout : isLeftOut key value = true
    · rw [if_pos hout, hout]
      exact ih
    · rw [if_neg hout, Bool.eq_false_iff.2 hout]
      refine ih.trans ?_
      cases own <;> rfl

end

/-! ## Required names -/

/-- The names of a list that have not been seen, each where it comes first. -/
def firstSeen (seen : List Json) : List Json → List Json
  | [] => []
  | name :: rest =>
    if Json.isAmong name seen then firstSeen seen rest else name :: firstSeen (seen ++ [name]) rest

theorem mergeRequired_eq (names more : List Json) : mergeRequired names more = names ++ firstSeen names more := by
  induction more generalizing names with
  | nil => exact (List.append_nil names).symm
  | cons name rest ih =>
    have hstep : mergeRequired names (name :: rest) =
        mergeRequired (if Json.isAmong name names then names else names ++ [name]) rest := rfl
    rw [hstep, ih, firstSeen]
    split
    · rfl
    · rw [List.append_assoc]
      rfl

theorem foldl_mergeRequired (names : List Json) (lists : List (List Json)) :
    lists.foldl mergeRequired names = mergeRequired names lists.flatten := by
  induction lists generalizing names with
  | nil => rfl
  | cons more rest ih =>
    rw [List.foldl_cons, ih, List.flatten_cons, mergeRequired, mergeRequired, mergeRequired,
      List.foldl_append]

/-! ## Properties -/

/-- The schemas of one property merged in order. -/
def mergedInOrder? : List Json → Option Json
  | [] => none
  | first :: rest => some (rest.foldl mergeSchemas first)

/-- The schemas that a property has in some schemas, in order. -/
def propertiesOf (name : String) (schemas : List Fields) : List Json :=
  schemas.flatMap fun schema => (declaredProperty? schema name).toList

theorem mergedInOrder?_bothMerged? (a b : Option Json) (rest : List Json) :
    mergedInOrder? ((bothMerged? a b).toList ++ rest) = mergedInOrder? (a.toList ++ (b.toList ++ rest)) := by
  cases a <;> cases b <;> rfl

theorem declaredProperty?_foldlM {own merged : Fields} {fragments : List Fields}
    (hfragments : ∀ fragment ∈ fragments, (Json.object fragment).ordered = true)
    (h : fragments.foldlM mergeFields own = some merged) (name : String) :
    declaredProperty? merged name = mergedInOrder? (propertiesOf name (own :: fragments)) := by
  induction fragments generalizing own with
  | nil =>
    cases h
    rw [propertiesOf, List.flatMap_cons, List.flatMap_nil, List.append_nil]
    cases declaredProperty? merged name <;> rfl
  | cons fragment rest ih =>
    rw [List.forall_mem_cons] at hfragments
    rw [List.foldlM_cons] at h
    obtain ⟨next, hnext, hmerged⟩ := Option.bind_eq_some_iff.1 h
    rw [ih hfragments.2 hmerged, propertiesOf, List.flatMap_cons,
      declaredProperty?_mergeFields hfragments.1 hnext, mergedInOrder?_bothMerged?]
    rfl

/-! ## Compositions -/

/-- The names that schemas require, in order. -/
def requiredNames (schemas : List Fields) : List Json :=
  ((valuesOf "required" schemas).filterMap Json.items?).flatten

/-- What a composition comes to when the fragments are merged into it in order. -/
structure IsMergeOf (composite : Fields) (fragments : List Fields) (merged : Fields) : Prop where
  -- a joined key that no fragment has stays as it is, even where it could not be joined
  required : merged.get? "required" =
    if (valuesOf "required" fragments).isEmpty then composite.get? "required"
    else some (.array (requiredNames [composite] ++ firstSeen (requiredNames [composite])
      (requiredNames fragments)))
  properties : if (valuesOf "properties" fragments).isEmpty then
      merged.get? "properties" = composite.get? "properties"
    else ∃ properties, merged.get? "properties" = some (.object properties)
  names : ∀ name, (declaredProperty? merged name).isSome = true ↔
    ∃ schema ∈ composite :: fragments, (declaredProperty? schema name).isSome = true
  alone : ∀ name schema, propertiesOf name (composite :: fragments) = [schema] →
    declaredProperty? merged name = some schema
  several : ∀ name, declaredProperty? merged name = mergedInOrder? (propertiesOf name (composite :: fragments))
  types : (valuesOf "type" (composite :: fragments)).Pairwise fun a b => a.same b = true
  type : merged.get? "type" = (valuesOf "type" (composite :: fragments)).head?
  other : ∀ key ∉ "allOf" :: joinedKeywords, merged.get? key =
    (composite.get? key).or ((valuesOf key fragments).find? fun value => !isLeftOut key value)
  composition : merged.get? "allOf" = none

/-- What stands in the way of merging fragments into a composition. -/
inductive Unmergeable (composite : Fields) (fragments : List Fields) : Prop where
  | type (h : ¬ (valuesOf "type" (composite :: fragments)).Pairwise fun a b => a.same b = true)
  | properties {value : Json} (hmore : valuesOf "properties" fragments ≠ [])
    (hvalue : value ∈ valuesOf "properties" (composite :: fragments)) (h : value.fields? = none)
  | required {value : Json} (hmore : valuesOf "required" fragments ≠ [])
    (hvalue : value ∈ valuesOf "required" (composite :: fragments)) (h : value.items? = none)

section

variable {composite own merged : Fields} {fragments : List Fields} {key name : String}

theorem valuesOf_eq_nil_iff : valuesOf key fragments = [] ↔ ∀ fragment ∈ fragments, fragment.get? key = none := by
  rw [valuesOf, List.flatMap_eq_nil_iff]
  simp only [Option.toList_eq_nil_iff]

theorem isSome_mergedInOrder?_iff : (mergedInOrder? (propertiesOf name fragments)).isSome = true ↔
    ∃ schema ∈ fragments, (declaredProperty? schema name).isSome = true := by
  have hinhabited : ∀ schemas : List Json, (mergedInOrder? schemas).isSome = true ↔ schemas ≠ [] := by
    intro schemas
    cases schemas <;> simp [mergedInOrder?]
  rw [hinhabited, Ne, propertiesOf, List.flatMap_eq_nil_iff]
  simp only [Option.toList_eq_nil_iff, Option.isSome_iff_ne_none]
  exact ⟨fun h => by simpa using h, fun h => by simpa using h⟩

theorem requiredNames_eq {names : List Json}
    (h : Json.items? ((composite.get? "required").getD (.array [])) = some names) :
    requiredNames [composite] = names := by
  rw [requiredNames, valuesOf, List.flatMap_cons, List.flatMap_nil, List.append_nil]
  cases hheld : composite.get? "required" with
  | none =>
    rw [hheld] at h
    exact Option.some.inj h
  | some held =>
    rw [hheld, Option.getD_some] at h
    rw [Option.toList_some, List.filterMap_cons_some h]
    exact List.append_nil names

theorem get?_erase_of_ne {erased : String} (hkey : key ≠ erased) :
    (composite.erase erased).get? key = composite.get? key := by
  rw [Fields.get?_erase, if_neg hkey.symm]

/-- A key whose values are joined by what is read of them. -/
structure IsJoined {α : Type} (key : String) (read? : Json → Option α) (write : α → Json)
    (join : α → α → α) (empty : α) : Prop where
  ne : key ≠ "allOf"
  read : ∀ a, read? (write a) = some a
  merged : mergedValue? key = joined? read? write join empty

theorem isJoined_properties : IsJoined "properties" Json.fields? .object mergeProperties [] :=
  ⟨by decide, fun _ => rfl, rfl⟩

theorem isJoined_required : IsJoined "required" Json.items? .array mergeRequired [] :=
  ⟨by decide, fun _ => rfl, rfl⟩

section

variable {α : Type} {read? : Json → Option α} {write : α → Json} {join : α → α → α} {empty : α}

/-- Under a joined key all values can be read, and what is read of them is joined in order. -/
theorem IsJoined.exists_of_merged (hjoined : IsJoined key read? write join empty)
    (hfragments : ∀ fragment ∈ fragments, fragment.Ordered)
    (h : fragments.foldlM mergeFields (composite.erase "allOf") = some merged)
    (hmore : valuesOf key fragments ≠ []) :
    (∀ value ∈ valuesOf key (composite :: fragments), (read? value).isSome = true) ∧
      ∃ held, read? ((composite.get? key).getD (write empty)) = some held ∧
        merged.get? key = some (write (((valuesOf key fragments).filterMap read?).foldl join held)) := by
  have hkey := foldlM_mergeFields_eq_some hfragments h key
  rw [get?_erase_of_ne hjoined.ne, hjoined.merged] at hkey
  exact exists_of_foldlM_joined? hjoined.read hkey hmore

/-- Under a joined key a value that cannot be read stands in the way. -/
theorem IsJoined.exists_of_none (hjoined : IsJoined key read? write join empty)
    (h : (valuesOf key fragments).foldlM (mergedValue? key) ((composite.erase "allOf").get? key) = none) :
    valuesOf key fragments ≠ [] ∧ ∃ value ∈ valuesOf key (composite :: fragments), read? value = none := by
  rw [get?_erase_of_ne hjoined.ne, hjoined.merged] at h
  exact exists_of_foldlM_joined?_eq_none hjoined.read h

end

/-- A key that no fragment has stays as it is. -/
theorem get?_of_valuesOf_eq_nil (hkey : key ≠ "allOf") (hfragments : ∀ fragment ∈ fragments, fragment.Ordered)
    (h : fragments.foldlM mergeFields (composite.erase "allOf") = some merged)
    (hnone : valuesOf key fragments = []) : merged.get? key = composite.get? key := by
  have hkept := foldlM_mergeFields_eq_some hfragments h key
  rw [hnone, get?_erase_of_ne hkey] at hkept
  exact (Option.some.inj hkept).symm

theorem get?_required_of_foldlM (hfragments : ∀ fragment ∈ fragments, fragment.Ordered)
    (h : fragments.foldlM mergeFields (composite.erase "allOf") = some merged) :
    merged.get? "required" =
      if (valuesOf "required" fragments).isEmpty then composite.get? "required"
      else some (.array (requiredNames [composite] ++ firstSeen (requiredNames [composite])
        (requiredNames fragments))) := by
  split
  · rename_i hnone
    exact get?_of_valuesOf_eq_nil (by decide) hfragments h (List.isEmpty_iff.1 hnone)
  · rename_i hmore
    rw [List.isEmpty_iff] at hmore
    obtain ⟨-, names, hnames, hmerged⟩ := isJoined_required.exists_of_merged hfragments h hmore
    rw [hmerged, foldl_mergeRequired, mergeRequired_eq, requiredNames_eq hnames]
    rfl

theorem get?_properties_of_foldlM (hfragments : ∀ fragment ∈ fragments, fragment.Ordered)
    (h : fragments.foldlM mergeFields (composite.erase "allOf") = some merged) :
    if (valuesOf "properties" fragments).isEmpty then merged.get? "properties" = composite.get? "properties"
    else ∃ properties, merged.get? "properties" = some (.object properties) := by
  split
  · rename_i hnone
    exact get?_of_valuesOf_eq_nil (by decide) hfragments h (List.isEmpty_iff.1 hnone)
  · rename_i hmore
    rw [List.isEmpty_iff] at hmore
    obtain ⟨-, held, -, hmerged⟩ := isJoined_properties.exists_of_merged hfragments h hmore
    exact ⟨_, hmerged⟩

theorem isMergeOf_of_foldlM (hfragments : ∀ fragment ∈ fragments, (Json.object fragment).ordered = true)
    (hflat : ∀ fragment ∈ fragments, fragment.get? "allOf" = none)
    (h : fragments.foldlM mergeFields (composite.erase "allOf") = some merged) :
    IsMergeOf composite fragments merged := by
  have hordered : ∀ fragment ∈ fragments, fragment.Ordered := fun fragment hfragment =>
    (Json.ordered_object.1 (hfragments fragment hfragment)).1
  have hkeys := foldlM_mergeFields_eq_some hordered h
  have hseveral : ∀ name, declaredProperty? merged name =
      mergedInOrder? (propertiesOf name (composite :: fragments)) := by
    intro name
    rw [declaredProperty?_foldlM hfragments h, propertiesOf, List.flatMap_cons,
      declaredProperty?_congr (get?_erase_of_ne (by decide : "properties" ≠ "allOf"))]
    rfl
  have htypes := foldlM_mergedType?_eq_some_iff.1 (hkeys "type")
  rw [get?_erase_of_ne (by decide), ← valuesOf_cons] at htypes
  refine ⟨get?_required_of_foldlM hordered h, get?_properties_of_foldlM hordered h, fun name => ?_,
    fun name schema hschema => ?_, hseveral, htypes.1, htypes.2, fun key hkey => ?_, ?_⟩
  · rw [hseveral, isSome_mergedInOrder?_iff]
  · rw [hseveral, hschema]
    rfl
  · rw [List.mem_cons, not_or] at hkey
    have hother := hkeys key
    rw [foldlM_mergedValue?_of_not_mem hkey.2, get?_erase_of_ne hkey.1, Option.some.injEq] at hother
    exact hother.symm
  · have hcomposition := hkeys "allOf"
    rw [foldlM_mergedValue?_of_not_mem (by decide), valuesOf_eq_nil_iff.2 hflat, Fields.get?_erase,
      if_pos rfl, Option.some.injEq] at hcomposition
    exact hcomposition.symm

theorem not_unmergeable_of_foldlM (hfragments : ∀ fragment ∈ fragments, fragment.Ordered)
    (h : fragments.foldlM mergeFields (composite.erase "allOf") = some merged) :
    ¬ Unmergeable composite fragments := by
  rintro (htypes | ⟨hmore, hvalue, hunread⟩ | ⟨hmore, hvalue, hunread⟩)
  · have hsame := (foldlM_mergedType?_eq_some_iff.1 (foldlM_mergeFields_eq_some hfragments h "type")).1
    rw [get?_erase_of_ne (by decide), ← valuesOf_cons] at hsame
    exact htypes hsame
  · have hread := (isJoined_properties.exists_of_merged hfragments h hmore).1 _ hvalue
    rw [hunread] at hread
    cases hread
  · have hread := (isJoined_required.exists_of_merged hfragments h hmore).1 _ hvalue
    rw [hunread] at hread
    cases hread

theorem unmergeable_of_foldlM (hfragments : ∀ fragment ∈ fragments, fragment.Ordered)
    (h : fragments.foldlM mergeFields (composite.erase "allOf") = none) :
    Unmergeable composite fragments := by
  obtain ⟨key, hkey⟩ := exists_of_foldlM_mergeFields_eq_none hfragments h
  by_cases hjoined : key ∈ joinedKeywords
  · simp only [joinedKeywords, List.mem_cons, List.not_mem_nil, or_false] at hjoined
    rcases hjoined with rfl | rfl | rfl
    · obtain ⟨hmore, value, hvalue, hunread⟩ := isJoined_properties.exists_of_none hkey
      exact .properties hmore hvalue hunread
    · obtain ⟨hmore, value, hvalue, hunread⟩ := isJoined_required.exists_of_none hkey
      exact .required hmore hvalue hunread
    · refine .type fun hsame => ?_
      rw [valuesOf_cons, ← get?_erase_of_ne (by decide : "type" ≠ "allOf")] at hsame
      rw [foldlM_mergedType?_eq_some_iff.2 ⟨hsame, rfl⟩] at hkey
      cases hkey
  · rw [foldlM_mergedValue?_of_not_mem hjoined] at hkey
    cases hkey

end

/-! ## Compositions of a document -/

section

variable (document : Json) (depth : Nat) (followed : List String)

/-- A composition with its fragments merged into it in order; the inner option is that of a merge that
failed. -/
def mergeComposition? (composite : Fields) (fragments : List Json) : Option (Option Fields) :=
  fragments.foldlM (mergeFragment? document depth followed) (some (composite.erase "allOf"))

/-- The fragments that resolve to objects without a composition, as these objects. -/
def resolvedFragments (fragments : List Json) : List Fields :=
  fragments.filterMap fun fragment => (resolveFragment? document depth followed fragment).join

variable {document depth followed}
variable {composite own merged keywords : Fields} {fragments : List Json} {fragment : Json}
  {outcome : Option Fields}

theorem get?_of_resolveFragment?
    (h : resolveFragment? document depth followed fragment = some (some keywords)) :
    keywords.get? "allOf" = none := by
  induction depth generalizing followed fragment with
  | zero => cases h
  | succ depth ih =>
    unfold resolveFragment? at h
    split at h
    · split at h
      · cases h
      · split at h
        · exact ih h
        · cases h
    · obtain ⟨flat, -, hflat⟩ := Option.map_eq_some_iff.1 h
      unfold flatFragment? at hflat
      split at hflat
      · split at hflat
        · cases hflat
        · rename_i hkey
          cases hflat
          exact Fields.hasKey_eq_false_iff.1 (Bool.eq_false_iff.2 hkey)
      · cases hflat

theorem resolvedFragments_eq {resolved : List Fields}
    (h : fragments.map (resolveFragment? document depth followed) =
      resolved.map fun keywords => some (some keywords)) :
    resolvedFragments document depth followed fragments = resolved := by
  have hjoin : resolvedFragments document depth followed fragments =
      (fragments.map (resolveFragment? document depth followed)).filterMap Option.join := by
    rw [List.filterMap_map]
    rfl
  rw [hjoin, h, List.filterMap_map]
  exact List.filterMap_some

theorem mem_resolvedFragments : keywords ∈ resolvedFragments document depth followed fragments ↔
    ∃ fragment ∈ fragments, resolveFragment? document depth followed fragment = some (some keywords) := by
  rw [resolvedFragments, List.mem_filterMap]
  simp only [Option.join_eq_some_iff]

theorem ordered_resolvedFragments (hdocument : document.ordered = true)
    (hfragments : ∀ fragment ∈ fragments, fragment.ordered = true) :
    ∀ keywords ∈ resolvedFragments document depth followed fragments,
      (Json.object keywords).ordered = true := by
  intro keywords hkeywords
  obtain ⟨fragment, hfragment, hresolved⟩ := mem_resolvedFragments.1 hkeywords
  exact ordered_of_resolveFragment? hdocument (hfragments fragment hfragment) hresolved

/-- A merge that succeeds has resolved all fragments and merged them. -/
theorem exists_of_mergeFragments?
    (h : fragments.foldlM (mergeFragment? document depth followed) (some own) = some (some merged)) :
    ∃ resolved : List Fields, fragments.map (resolveFragment? document depth followed) =
      (resolved.map fun keywords => some (some keywords)) ∧ resolved.foldlM mergeFields own = some merged := by
  induction fragments generalizing own with
  | nil =>
    cases h
    exact ⟨[], rfl, rfl⟩
  | cons fragment rest ih =>
    rw [List.foldlM_cons] at h
    obtain ⟨next, hnext, hrest⟩ := Option.bind_eq_some_iff.1 h
    obtain ⟨resolved, hresolved, hmerged⟩ := Option.map_eq_some_iff.1 hnext
    cases next with
    | none =>
      rw [foldlM_mergeFragment?_none] at hrest
      cases hrest
    | some next =>
      obtain ⟨keywords, rfl, hkeywords⟩ := Option.bind_eq_some_iff.1 hmerged
      obtain ⟨others, hothers, hall⟩ := ih hrest
      refine ⟨keywords :: others, ?_, ?_⟩
      · rw [List.map_cons, List.map_cons, hresolved, hothers]
      · rw [List.foldlM_cons, hkeywords]
        exact hall

/-- A merge fails by a fragment that does not resolve or by those that do. -/
theorem of_mergeFragments?_eq_none
    (h : fragments.foldlM (mergeFragment? document depth followed) (some own) = some none) :
    (∃ fragment ∈ fragments, resolveFragment? document depth followed fragment = some none) ∨
      (resolvedFragments document depth followed fragments).foldlM mergeFields own = none := by
  induction fragments generalizing own with
  | nil => cases h
  | cons fragment rest ih =>
    rw [List.foldlM_cons] at h
    obtain ⟨next, hnext, hrest⟩ := Option.bind_eq_some_iff.1 h
    obtain ⟨resolved, hresolved, hmerged⟩ := Option.map_eq_some_iff.1 hnext
    cases resolved with
    | none => exact .inl ⟨fragment, List.mem_cons_self .., hresolved⟩
    | some keywords =>
      have hlist : resolvedFragments document depth followed (fragment :: rest) =
          keywords :: resolvedFragments document depth followed rest :=
        List.filterMap_cons_some (by rw [hresolved]; rfl)
      rw [hlist, List.foldlM_cons]
      cases next with
      | none =>
        refine .inr ?_
        rw [show mergeFields own keywords = none from hmerged]
        rfl
      | some next =>
        rw [show mergeFields own keywords = some next from hmerged]
        rcases ih hrest with ⟨other, hother, hnone⟩ | hfailed
        · exact .inl ⟨other, List.mem_cons_of_mem _ hother, hnone⟩
        · exact .inr hfailed

/-- What a composition comes to, and when it cannot be merged. -/
theorem mergeComposition?_spec (hdocument : document.ordered = true)
    (hcomposite : (Json.object composite).ordered = true)
    (hfragments : composite.get? "allOf" = some (.array fragments))
    (h : mergeComposition? document depth followed composite fragments = some outcome) :
    flattenNode? document (depth + 1) followed (.object composite) =
      (Fields.mapValues? (flattenField? document depth followed) (outcome.getD composite)).map .object ∧
    (∀ merged, outcome = some merged → ∃ resolved : List Fields,
      (fragments.map (resolveFragment? document depth followed) =
        resolved.map fun keywords => some (some keywords)) ∧ IsMergeOf composite resolved merged) ∧
    (outcome = none ↔
      (∃ fragment ∈ fragments, resolveFragment? document depth followed fragment = some none) ∨
        Unmergeable composite (resolvedFragments document depth followed fragments)) := by
  have hordered : ∀ keywords ∈ resolvedFragments document depth followed fragments,
      (Json.object keywords).ordered = true :=
    ordered_resolvedFragments hdocument (Json.ordered_array.1 (Json.ordered_of_get? hcomposite hfragments))
  have hkeys : ∀ keywords ∈ resolvedFragments document depth followed fragments, keywords.Ordered :=
    fun keywords hkeywords => (Json.ordered_object.1 (hordered keywords hkeywords)).1
  refine ⟨?_, fun merged hmerged => ?_, fun hnone => ?_, fun hfails => ?_⟩
  · have hcomposed : composedFields? document depth followed composite = some (outcome.getD composite) := by
      unfold composedFields?
      rw [hfragments]
      exact congrArg (Option.map _) h
    rw [flattenNode?_object, hcomposed, Option.bind_some]
  · subst hmerged
    obtain ⟨resolved, hresolved, hall⟩ := exists_of_mergeFragments? h
    rw [resolvedFragments_eq hresolved] at hordered
    refine ⟨resolved, hresolved, isMergeOf_of_foldlM hordered (fun keywords hkeywords => ?_) hall⟩
    rw [← resolvedFragments_eq hresolved, mem_resolvedFragments] at hkeywords
    obtain ⟨fragment, -, hfragment⟩ := hkeywords
    exact get?_of_resolveFragment? hfragment
  · subst hnone
    exact (of_mergeFragments?_eq_none h).imp_right (unmergeable_of_foldlM hkeys)
  · cases outcome with
    | none => rfl
    | some merged =>
      obtain ⟨resolved, hresolved, hall⟩ := exists_of_mergeFragments? h
      rcases hfails with ⟨fragment, hfragment, hunresolved⟩ | hunmergeable
      · have hmem := List.mem_map_of_mem (f := resolveFragment? document depth followed) hfragment
        rw [hresolved, hunresolved, List.mem_map] at hmem
        obtain ⟨keywords, -, hsome⟩ := hmem
        cases hsome
      · rw [resolvedFragments_eq hresolved] at hkeys hunmergeable
        exact absurd hunmergeable (not_unmergeable_of_foldlM hkeys hall)

end

/-! ## A pet with a tag -/

/-- A document with one schema to build on. -/
def baseDocument : Json :=
  .object [("components", .object [("schemas", .object [("Base", .object
    [("properties", .object [("id", .object [("type", .string "string")])]),
      ("required", .array [.string "id"])])])])]

/-- The schema and a further property, both required. -/
def tagFragments : List Json :=
  [.object [("$ref", .string "#/components/schemas/Base")],
    .object [("discriminator", .object [("propertyName", .string "tag")]),
      ("properties", .object [("tag", .bool true)]),
      ("required", .array [.string "tag", .string "id"]), ("type", .string "object")]]

/-- A composition of these that requires a name of its own. -/
def taggedComposite : Fields :=
  [("allOf", .array tagFragments), ("required", .array [.string "kind"])]

/-- What it comes to. -/
def taggedMerged : Fields :=
  [("properties", .object [("id", .object [("type", .string "string")]), ("tag", .bool true)]),
    ("required", .array [.string "kind", .string "id", .string "tag"]), ("type", .string "object")]

theorem taggedComposite_merged : ∃ resolved : List Fields,
    (tagFragments.map (resolveFragment? baseDocument 6 []) =
      resolved.map fun keywords => some (some keywords)) ∧
    IsMergeOf taggedComposite resolved taggedMerged := by
  have hmerged : mergeComposition? baseDocument 6 [] taggedComposite tagFragments =
      some (some taggedMerged) := rfl
  exact (mergeComposition?_spec (by decide) (by decide) rfl hmerged).2.1 _ rfl

end ApiContract
