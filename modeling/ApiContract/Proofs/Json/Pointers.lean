import ApiContract.Proofs.Json.Fields
import ApiContract.Schema.Place

/-! # Pointers and the places they name

A key may be any text, also one of slashes and tildes. Escaped, it is a segment without slashes, so that the
segments of a pointer are told apart again, and each gives back its key.

* `unescapeStep_escapeStep`, `slash_not_mem_escapeStep`: a key as a segment.
* `indexOfStep?_naturalText`: the place of an item, written in decimal.
* `pointerSteps?_append`, `Json.resolve?_append`: segments behind a reference lead on from where it leads.
* `Json.Leads`: the part of a value that steps lead to; `Json.follow?_of_leads` finds it.
* `nodeReference_resolves`: every node of a document has a reference of its own. -/

set_option autoImplicit false

namespace ApiContract

/-! ## Pieces of texts -/

section

variable {c : Char} {text : List Char}

theorem not_mem_of_mem_splitOn {piece : List Char} (h : piece ∈ text.splitOn c) : c ∉ piece := by
  induction text generalizing piece with
  | nil =>
    rw [List.splitOn, List.splitOnP_nil, List.mem_singleton] at h
    simp [h]
  | cons first rest ih =>
    rw [List.splitOn, List.splitOnP_cons_eq_if_modifyHead] at h
    by_cases hfirst : first = c
    · rw [if_pos (by simpa using hfirst), List.mem_cons] at h
      rcases h with rfl | h
      · simp
      · exact ih h
    · rw [if_neg (by simpa using hfirst)] at h
      cases hpieces : rest.splitOn c with
      | nil =>
        rw [List.splitOn] at hpieces
        rw [hpieces] at h
        cases h
      | cons head others =>
        rw [List.splitOn] at hpieces
        rw [hpieces, List.modifyHead_cons, List.mem_cons] at h
        rcases h with rfl | h
        · have hhead : c ∉ head := ih (by rw [List.splitOn, hpieces]; exact List.mem_cons_self ..)
          simp [hhead, Ne.symm hfirst]
        · exact ih (by rw [List.splitOn, hpieces]; exact List.mem_cons_of_mem _ h)

end

/-! ## Keys as segments -/

theorem unescapeStepChars_cons {c : Char} (h : c ≠ '~') (rest : List Char) :
    unescapeStepChars (c :: rest) = c :: unescapeStepChars rest := by
  rw [unescapeStepChars]
  · rintro _ rfl
    exact absurd rfl h
  · rintro _ rfl
    exact absurd rfl h

theorem unescapeStepChars_escapeStepChars (key : List Char) :
    unescapeStepChars (escapeStepChars key) = key := by
  fun_induction escapeStepChars key with
  | case1 => rfl
  | case2 rest ih => rw [unescapeStepChars, ih]
  | case3 rest ih => rw [unescapeStepChars, ih]
  | case4 c rest htilde _ ih => rw [unescapeStepChars_cons htilde, ih]

theorem slash_not_mem_escapeStepChars (key : List Char) : '/' ∉ escapeStepChars key := by
  fun_induction escapeStepChars key with
  | case1 => exact List.not_mem_nil
  | case2 rest ih => simp [ih]
  | case3 rest ih => simp [ih]
  | case4 c rest _ hslash ih => simp [ih, Ne.symm hslash]

@[simp] theorem unescapeStep_escapeStep (key : String) : unescapeStep (escapeStep key) = key := by
  rw [unescapeStep, escapeStep, String.toList_ofList, unescapeStepChars_escapeStepChars,
    String.ofList_toList]

theorem slash_not_mem_escapeStep (key : String) : '/' ∉ (escapeStep key).toList := by
  rw [escapeStep, String.toList_ofList]
  exact slash_not_mem_escapeStepChars key.toList

/-- Writing a segment in one go is writing first its tildes and then its slashes. -/
theorem escapeStepChars_eq_flatMap (key : List Char) : escapeStepChars key =
    (key.flatMap fun c => if c = '~' then ['~', '0'] else [c]).flatMap fun c =>
      if c = '/' then ['~', '1'] else [c] := by
  fun_induction escapeStepChars key with
  | case1 => rfl
  | case2 rest ih => simp [ih]
  | case3 rest ih => simp [ih]
  | case4 c rest htilde hslash ih =>
    rw [List.flatMap_cons, if_neg htilde, List.singleton_append, List.flatMap_cons, if_neg hslash, ih,
      List.singleton_append]

theorem escapeStepChars_of_plain {key : List Char} (h : ∀ c ∈ key, c ≠ '~' ∧ c ≠ '/') :
    escapeStepChars key = key := by
  induction key with
  | nil => rfl
  | cons c rest ih =>
    obtain ⟨⟨htilde, hslash⟩, hrest⟩ := List.forall_mem_cons.1 h
    rw [escapeStepChars, ih hrest]
    · exact htilde
    · exact hslash

/-- A tilde and a digit behind it, wherever they stand, as one character. -/
def replacePairs (digit mark : Char) : List Char → List Char
  | [] => []
  | [c] => [c]
  | first :: second :: rest =>
    if first = '~' ∧ second = digit then mark :: replacePairs digit mark rest
    else first :: replacePairs digit mark (second :: rest)

theorem replacePairs_cons {digit mark c : Char} (h : c ≠ '~') (rest : List Char) :
    replacePairs digit mark (c :: rest) = c :: replacePairs digit mark rest := by
  cases rest with
  | nil => rfl
  | cons second rest => rw [replacePairs, if_neg fun both => h both.1]

theorem replacePairs_tilde {digit mark : Char} {behind : List Char} (h : behind.head? ≠ some digit) :
    replacePairs digit mark ('~' :: behind) = '~' :: replacePairs digit mark behind := by
  cases behind with
  | nil => rfl
  | cons second rest => rw [replacePairs, if_neg fun both => h (congrArg some both.2)]

/-- A slash that is put in is no digit, and all else stays what it is. -/
theorem head?_replacePairs_ne {digit other : Char} (hother : other ≠ '/') {text : List Char}
    (h : text.head? ≠ some other) : (replacePairs digit '/' text).head? ≠ some other := by
  fun_cases replacePairs digit '/' text with
  | case1 => exact h
  | case2 c => exact h
  | case3 => exact fun hslash => hother (Option.some.inj hslash).symm
  | case4 => exact h

/-- Reading a segment in one go is reading first its slashes and then its tildes. -/
theorem unescapeStepChars_eq_replacePairs (segment : List Char) :
    unescapeStepChars segment = replacePairs '0' '~' (replacePairs '1' '/' segment) := by
  fun_induction unescapeStepChars segment with
  | case1 => rfl
  | case2 rest ih =>
    have hzero : replacePairs '1' '/' ('~' :: '0' :: rest) = '~' :: '0' :: replacePairs '1' '/' rest := by
      rw [replacePairs_tilde (by simp), replacePairs_cons (by decide)]
    rw [hzero, replacePairs, if_pos ⟨rfl, rfl⟩, ih]
  | case3 rest ih => rw [replacePairs, if_pos ⟨rfl, rfl⟩, replacePairs_cons (by decide), ih]
  | case4 c rest hzero hone ih =>
    by_cases htilde : c = '~'
    · subst htilde
      have hhead : ∀ digit, (∀ behind, '~' = '~' → rest = digit :: behind → False) →
          rest.head? ≠ some digit := by
        rintro digit h hdigit
        obtain ⟨behind, hrest⟩ := List.head?_eq_some_iff.1 hdigit
        exact h behind rfl hrest
      rw [replacePairs_tilde (hhead '1' hone),
        replacePairs_tilde (head?_replacePairs_ne (by decide) (hhead '0' hzero)), ih]
    · rw [replacePairs_cons htilde, replacePairs_cons htilde, ih]

/-! ## Places of items -/

theorem digitsValue?_eq_ofDigitChars {digits : List Char} (h : ∀ c ∈ digits, c.isDigit = true)
    (read : Nat) : digitsValue? 10 read digits = some (Nat.ofDigitChars 10 digits read) := by
  induction digits generalizing read with
  | nil => rfl
  | cons c rest ih =>
    have hc := Char.isDigit_iff_toNat.1 (h c (List.mem_cons_self ..))
    have hvalue : digitValue? c = some (c.toNat - '0'.toNat) := if_pos hc
    have hlt : c.toNat - '0'.toNat < 10 := by
      have hnine : '9'.toNat - '0'.toNat < 10 := by decide
      omega
    simp only [digitsValue?, hvalue, if_pos hlt]
    rw [ih (fun d hd => h d (List.mem_cons_of_mem _ hd)), Nat.ofDigitChars_cons, Nat.mul_comm]

theorem isDigit_of_mem_naturalText {n : Nat} {c : Char} (h : c ∈ (naturalText n).toList) :
    c.isDigit = true := by
  rw [naturalText, String.toList_ofList] at h
  exact Nat.isDigit_of_mem_toDigits (by decide) (by decide) h

theorem escapeStep_naturalText (n : Nat) : escapeStep (naturalText n) = naturalText n := by
  rw [escapeStep, escapeStepChars_of_plain, String.ofList_toList]
  intro c hc
  have hdigit := isDigit_of_mem_naturalText hc
  constructor <;> rintro rfl <;> cases hdigit

theorem unsigned?_naturalText (n : Nat) : unsigned? 10 (naturalText n).toList = some n := by
  have hdigits : ∀ c ∈ (naturalText n).toList, c.isDigit = true := fun _ => isDigit_of_mem_naturalText
  have hvalue := digitsValue?_eq_ofDigitChars hdigits 0
  have hempty : (naturalText n).toList.isEmpty = false := by
    rw [naturalText, String.toList_ofList]
    exact List.isEmpty_eq_false_iff.2 Nat.toDigits_ne_nil
  unfold unsigned?
  split
  · rename_i rest hplus
    cases hdigits '+' (hplus ▸ List.mem_cons_self ..)
  · simp only [hempty, Bool.false_eq_true, if_false]
    rw [hvalue, naturalText, String.toList_ofList, Nat.ofDigitChars_ten_toDigits]

theorem indexOfStep?_naturalText {n : Nat} (h : n < Nat.pow 2 64) :
    indexOfStep? (naturalText n) = some n := by
  rw [indexOfStep?, unsigned?_naturalText, Option.bind_some, if_pos h]

/-! ## Segments behind a reference -/

section

variable {segments more : List String}

@[simp] theorem segmentsText_nil : segmentsText [] = "" := rfl

theorem segmentsText_cons (segment : String) (rest : List String) :
    segmentsText (segment :: rest) = "/" ++ segment ++ segmentsText rest := by
  rw [segmentsText, List.map_cons, String.join_cons, segmentsText]

theorem segmentsText_append (segments more : List String) :
    segmentsText (segments ++ more) = segmentsText segments ++ segmentsText more := by
  rw [segmentsText, List.map_append, String.join_append, segmentsText, segmentsText]

theorem pointerText_eq (steps : List String) : pointerText steps = segmentsText (steps.map escapeStep) := by
  rw [pointerText, segmentsText, List.map_map]
  rfl

theorem toList_segmentsText_cons (segment : String) (rest : List String) :
    (segmentsText (segment :: rest)).toList = '/' :: (segment ++ segmentsText rest).toList := by
  rw [segmentsText_cons, String.append_assoc, String.toList_append]
  rfl

theorem splitSlashes_eq_singleton {segment : String} (hslash : '/' ∉ segment.toList) :
    splitSlashes segment = [segment] := by
  rw [splitSlashes, List.splitOn_eq_singleton hslash, List.map_singleton, String.ofList_toList]

theorem pointerText_singleton (step : String) : pointerText [step] = "/" ++ escapeStep step := by
  rw [pointerText_eq, List.map_singleton, segmentsText_cons, segmentsText_nil, String.append_empty]

theorem pointerText_append (steps more : List String) :
    pointerText (steps ++ more) = pointerText steps ++ pointerText more := by
  simp only [pointerText_eq, List.map_append, segmentsText_append]

/-- The slashes before segments are found again, whatever stands in front of them. -/
theorem splitSlashes_append (hslash : ∀ segment ∈ segments, '/' ∉ segment.toList) (first : String) :
    splitSlashes (first ++ segmentsText segments) = splitSlashes first ++ segments := by
  induction segments generalizing first with
  | nil => simp
  | cons segment rest ih =>
    obtain ⟨hsegment, hrest⟩ := List.forall_mem_cons.1 hslash
    calc splitSlashes (first ++ segmentsText (segment :: rest))
        = splitSlashes first ++ splitSlashes (segment ++ segmentsText rest) := by
          rw [splitSlashes, String.toList_append, toList_segmentsText_cons,
            List.splitOn_append_cons_self, List.map_append, splitSlashes, splitSlashes]
      _ = splitSlashes first ++ segment :: rest := by
          rw [ih hrest, splitSlashes_eq_singleton hsegment, List.singleton_append]

theorem toList_segmentsText {pieces : List (List Char)} (h : pieces ≠ []) :
    (segmentsText (pieces.map String.ofList)).toList = '/' :: ['/'].intercalate pieces := by
  induction pieces with
  | nil => exact absurd rfl h
  | cons piece rest ih =>
    rw [List.map_cons, toList_segmentsText_cons, String.toList_append, String.toList_ofList]
    cases rest with
    | nil => simp
    | cons second rest =>
      rw [ih (List.cons_ne_nil _ _), List.intercalate_cons_cons, List.append_assoc]
      rfl

/-- Between the slashes of a text stand segments, and these are the text again. -/
theorem segmentsText_splitSlashes (text : String) : segmentsText (splitSlashes text) = "/" ++ text := by
  rw [← String.toList_inj, splitSlashes, toList_segmentsText (List.splitOn_ne_nil _ _),
    List.intercalate_splitOn, String.toList_append]
  rfl

theorem slash_not_mem_of_mem_splitSlashes {text segment : String} (h : segment ∈ splitSlashes text) :
    '/' ∉ segment.toList := by
  obtain ⟨piece, hpiece, rfl⟩ := List.mem_map.1 h
  rw [String.toList_ofList]
  exact not_mem_of_mem_splitOn hpiece

theorem splitSlashes_segmentsText (hslash : ∀ segment ∈ segments, '/' ∉ segment.toList) :
    splitSlashes (segmentsText segments) = "" :: segments := by
  have happend := splitSlashes_append hslash ""
  rw [String.empty_append] at happend
  exact happend

theorem pointerSteps?_of_toList {reference : String} {rest : List Char}
    (h : reference.toList = '#' :: '/' :: rest) :
    pointerSteps? reference = some ((splitSlashes (String.ofList rest)).map unescapeStep) := by
  simp only [pointerSteps?, h]

/-- Segments behind a reference go on from where it leads. -/
theorem pointerSteps?_append {reference : String} {steps : List String}
    (h : pointerSteps? reference = some steps) (hslash : ∀ segment ∈ segments, '/' ∉ segment.toList) :
    pointerSteps? (reference ++ segmentsText segments) = some (steps ++ segments.map unescapeStep) := by
  cases segments with
  | nil => simpa using h
  | cons segment more =>
    have htext : (reference ++ segmentsText (segment :: more)).toList =
        reference.toList ++ '/' :: (segment ++ segmentsText more).toList := by
      rw [String.toList_append, toList_segmentsText_cons]
    unfold pointerSteps? at h
    split at h
    · rename_i hhash
      cases h
      have hmore := (List.forall_mem_cons.1 hslash).2
      rw [hhash, List.singleton_append] at htext
      rw [pointerSteps?_of_toList htext, String.ofList_toList, splitSlashes_append hmore,
        splitSlashes_eq_singleton (hslash segment (List.mem_cons_self ..)), List.nil_append,
        List.singleton_append]
    · rename_i rest hrest
      cases h
      rw [hrest, List.cons_append, List.cons_append] at htext
      have hbehind : String.ofList (rest ++ '/' :: (segment ++ segmentsText more).toList) =
          String.ofList rest ++ segmentsText (segment :: more) := by
        rw [← toList_segmentsText_cons, String.ofList_append, String.ofList_toList]
      rw [pointerSteps?_of_toList htext, hbehind, splitSlashes_append hslash, List.map_append]
    · cases h

theorem slash_not_mem_escaped (steps : List String) :
    ∀ segment ∈ steps.map escapeStep, '/' ∉ segment.toList :=
  List.forall_mem_map.2 fun step _ => slash_not_mem_escapeStep step

theorem pointerSteps?_append_pointerText {reference : String} {steps : List String}
    (h : pointerSteps? reference = some steps) (more : List String) :
    pointerSteps? (reference ++ pointerText more) = some (steps ++ more) := by
  rw [pointerText_eq, pointerSteps?_append h (slash_not_mem_escaped more), List.map_map]
  simp [Function.comp_def]

end

/-! ## Following steps -/

namespace Json

theorem child?_of_get? {value part : Json} {key : String} (h : value.get? key = some part) :
    value.child? key = some part := by
  cases value with
  | object fields => exact h
  | _ => cases h

theorem follow?_append (value : Json) (steps more : List String) :
    value.follow? (steps ++ more) = (value.follow? steps).bind fun part => part.follow? more := by
  induction steps generalizing value with
  | nil => rfl
  | cons step rest ih => simp only [List.cons_append, follow?, ih, Option.bind_assoc]

theorem follow?_of_child? {value part inner : Json} {steps : List String} {step : String}
    (h : value.follow? steps = some part) (hinner : part.child? step = some inner) :
    value.follow? (steps ++ [step]) = some inner := by
  rw [follow?_append, h, Option.bind_some, follow?, hinner]
  rfl

/-- Segments behind a reference lead on from the value of the reference. -/
theorem resolve?_append {document value : Json} {reference : String} {segments : List String}
    (h : document.resolve? reference = some value)
    (hslash : ∀ segment ∈ segments, '/' ∉ segment.toList) :
    document.resolve? (reference ++ segmentsText segments) =
      value.follow? (segments.map unescapeStep) := by
  obtain ⟨steps, hsteps, hvalue⟩ := Option.bind_eq_some_iff.1 h
  rw [resolve?, pointerSteps?_append hsteps hslash, Option.bind_some, follow?_append, hvalue,
    Option.bind_some]

theorem resolve?_append_pointerText {document value : Json} {reference : String}
    (h : document.resolve? reference = some value) (steps : List String) :
    document.resolve? (reference ++ pointerText steps) = value.follow? steps := by
  rw [pointerText_eq, resolve?_append h (slash_not_mem_escaped steps), List.map_map]
  simp [Function.comp_def]

/-! ## Leading steps -/

/-- Steps lead from a value to a part of it, by the names of members and the places of items. -/
inductive Leads : Json → List String → Json → Prop where
  | here (value : Json) : Leads value [] value
  | member {fields : Fields} {name : String} {value part : Json} {steps : List String}
    (hmem : (name, value) ∈ fields) (h : Leads value steps part) :
    Leads (.object fields) (name :: steps) part
  | item {items : List Json} {i : Nat} {value part : Json} {steps : List String}
    (hitem : items[i]? = some value) (h : Leads value steps part) :
    Leads (.array items) (naturalText i :: steps) part

namespace Leads

theorem trans {whole inner part : Json} {steps more : List String} (h : whole.Leads steps inner)
    (hmore : inner.Leads more part) : whole.Leads (steps ++ more) part := by
  induction h with
  | here value => exact hmore
  | member hmem _ ih => exact .member hmem (ih hmore)
  | item hitem _ ih => exact .item hitem (ih hmore)

theorem of_get? {value part : Json} {key : String} (h : value.get? key = some part) :
    value.Leads [key] part := by
  cases value with
  | object fields => exact .member (Fields.mem_of_get? h) (.here part)
  | _ => cases h

theorem of_getElem? {items : List Json} {i : Nat} {item : Json} (h : items[i]? = some item) :
    (Json.array items).Leads [naturalText i] item := .item h (.here item)

end Leads

/-! ## Addressable documents -/

mutual

/-- Whether the place of every item is a number that steps may name, one below `2 ^ 64`. No list in
memory is longer. -/
def addressable : Json → Bool
  | object fields => addressableFields fields
  | array items => decide (items.length ≤ Nat.pow 2 64) && addressableItems items
  | _ => true

def addressableItems : List Json → Bool
  | [] => true
  | item :: rest => addressable item && addressableItems rest

def addressableFields : Fields → Bool
  | [] => true
  | (_, value) :: rest => addressable value && addressableFields rest

end

theorem addressableItems_iff (items : List Json) :
    addressableItems items = true ↔ ∀ item ∈ items, item.addressable = true := by
  induction items with
  | nil => simp [addressableItems]
  | cons item rest ih => simp [addressableItems, ih]

theorem addressableFields_iff (fields : Fields) :
    addressableFields fields = true ↔ ∀ field ∈ fields, field.2.addressable = true := by
  induction fields with
  | nil => simp [addressableFields]
  | cons field rest ih => simp [addressableFields, ih]

theorem addressable_object {fields : Fields} :
    (object fields).addressable = true ↔ ∀ field ∈ fields, field.2.addressable = true := by
  rw [addressable, addressableFields_iff]

theorem addressable_array {items : List Json} : (array items).addressable = true ↔
    items.length ≤ Nat.pow 2 64 ∧ ∀ item ∈ items, item.addressable = true := by
  rw [addressable, Bool.and_eq_true, decide_eq_true_iff, addressableItems_iff]

/-- A value whose keys stand once each and in order, and whose items all have a place. -/
structure IsDocument (value : Json) : Prop where
  ordered : value.ordered = true
  addressable : value.addressable = true

theorem IsDocument.of_child? {value part : Json} {step : String} (h : value.IsDocument)
    (hpart : value.child? step = some part) : part.IsDocument := by
  cases value with
  | object fields =>
    have hmem := Fields.mem_of_get? hpart
    exact ⟨(ordered_object.1 h.ordered).2 _ hmem, addressable_object.1 h.addressable _ hmem⟩
  | array items =>
    obtain ⟨i, -, hitem⟩ := Option.bind_eq_some_iff.1 hpart
    have hmem := List.mem_of_getElem? hitem
    exact ⟨ordered_array.1 h.ordered _ hmem, (addressable_array.1 h.addressable).2 _ hmem⟩
  | _ => cases hpart

theorem IsDocument.of_follow? {value part : Json} {steps : List String} (h : value.IsDocument)
    (hpart : value.follow? steps = some part) : part.IsDocument := by
  induction steps generalizing value with
  | nil =>
    cases hpart
    exact h
  | cons step rest ih =>
    obtain ⟨child, hchild, hrest⟩ := Option.bind_eq_some_iff.1 hpart
    exact ih (h.of_child? hchild) hrest

theorem IsDocument.of_resolve? {document value : Json} {reference : String} (h : document.IsDocument)
    (hvalue : document.resolve? reference = some value) : value.IsDocument := by
  obtain ⟨steps, -, hsteps⟩ := Option.bind_eq_some_iff.1 hvalue
  exact h.of_follow? hsteps

/-- In a document steps are followed to where they lead. -/
theorem follow?_of_leads {value part : Json} {steps : List String} (hdocument : value.IsDocument)
    (h : value.Leads steps part) : value.follow? steps = some part := by
  induction h with
  | here value => rfl
  | @member fields name inner _ _ hmem _ ih =>
    have hchild : (object fields).child? name = some inner :=
      Fields.get?_of_mem (ordered_object.1 hdocument.ordered).1 hmem
    rw [follow?, hchild, Option.bind_some, ih (hdocument.of_child? hchild)]
  | @item items i inner _ _ hitem _ ih =>
    have hplace : i < Nat.pow 2 64 :=
      Nat.lt_of_lt_of_le (List.getElem?_eq_some_iff.1 hitem).1
        (addressable_array.1 hdocument.addressable).1
    have hchild : (array items).child? (naturalText i) = some inner := by
      rw [child?, indexOfStep?_naturalText hplace, Option.bind_some, hitem]
    rw [follow?, hchild, Option.bind_some, ih (hdocument.of_child? hchild)]

end Json

/-! ## References to nodes -/

/-- The reference to where steps lead from the root. -/
def nodeReference (steps : List String) : String := "#" ++ pointerText steps

theorem nodeReference_append (steps more : List String) :
    nodeReference (steps ++ more) = nodeReference steps ++ pointerText more := by
  rw [nodeReference, nodeReference, pointerText_append, String.append_assoc]

theorem pointerSteps?_nodeReference (steps : List String) :
    pointerSteps? (nodeReference steps) = some steps :=
  @pointerSteps?_append_pointerText "#" [] rfl steps

theorem Json.resolve?_nodeReference (document : Json) (steps : List String) :
    document.resolve? (nodeReference steps) = document.follow? steps := by
  rw [Json.resolve?, pointerSteps?_nodeReference, Option.bind_some]

/-- The reference to a node gives back its steps and is resolved to the node, and no other steps have this
reference. -/
theorem nodeReference_resolves {document node : Json} {steps : List String}
    (hdocument : document.IsDocument) (h : document.Leads steps node) :
    pointerSteps? (nodeReference steps) = some steps ∧
      document.resolve? (nodeReference steps) = some node ∧
        ∀ other, nodeReference other = nodeReference steps → other = steps := by
  refine ⟨pointerSteps?_nodeReference steps, ?_, fun other hsame => ?_⟩
  · rw [Json.resolve?_nodeReference, Json.follow?_of_leads hdocument h]
  · have hsteps := pointerSteps?_nodeReference other
    rw [hsame, pointerSteps?_nodeReference, Option.some.injEq] at hsteps
    exact hsteps.symm

/-- Names that are empty or made of the marks themselves. -/
theorem nodeReference_resolves_marks :
    let document : Json := .object [("", .array [.null, .object [("~01/", .bool true)]])]
    document.Leads ["", "1", "~01/"] (.bool true) ∧
      nodeReference ["", "1", "~01/"] = "#//1/~001~1" ∧
        document.resolve? "#//1/~001~1" = some (.bool true) := by
  have hleads : (Json.object [("", .array [.null, .object [("~01/", .bool true)]])]).Leads
      ["", naturalText 1, "~01/"] (.bool true) :=
    .member (List.mem_singleton.2 rfl) (.item rfl (.member (List.mem_singleton.2 rfl) (.here _)))
  exact ⟨hleads, rfl, (nodeReference_resolves ⟨by decide, by decide⟩ hleads).2.1⟩

end ApiContract
