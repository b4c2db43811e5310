import ApiContract.Proofs.Preparation.Keeping
import ApiContract.Proofs.Preparation.Referring

/-! # Flat compositions of related documents

Flattening looks a fragment up in the document. As long as no reference leads to where two documents
differ, both are flattened alike.

* `refersOnly_flattening`: merging and flattening add no references.
* `flattening_congr`: documents in which all references of a value lead to the same flatten it alike.
* `Renamed.flattenCompositions`: documents that differ in the name of one entry stay so. -/

set_option autoImplicit false

namespace ApiContract

/-! ## References of flattened values -/

theorem inherited_refersOnly (p : String → Prop) :
    Inherited (RefersOnly p) (RefersOnlyUnder p) fun _ => True where
  object _ := by rw [true_and, refersOnly_object]
  array _ := refersOnly_array
  value _ _ h := h.2
  plain _ _ hplain hvalue := ⟨fun hkey text htext => absurd htext (hplain hkey text), hvalue⟩
  empty := trivial
  insert _ _ _ _ := trivial
  sublist _ _ := trivial

/-- Flattening adds no reference: those of the result are of the node or of the document. -/
theorem refersOnly_flattening {p : String → Prop} {document : Json} (hdocument : RefersOnly p document)
    (depth : Nat) :
    (∀ followed node flat, RefersOnly p node → flattenNode? document depth followed node = some flat →
      RefersOnly p flat) ∧
    (∀ followed fragment keywords, RefersOnly p fragment →
      resolveFragment? document depth followed fragment = some (some keywords) →
      RefersOnly p (.object keywords)) :=
  (inherited_refersOnly p).flattening (fun _ _ _ _ _ => hdocument.resolved) depth

/-! ## Documents that resolve alike -/

section

variable {p : String → Prop} {left right : Json}

theorem mapValues?_congr {g f : String → Json → Option Json} {fields : Fields}
    (h : ∀ field ∈ fields, g field.1 field.2 = f field.1 field.2) :
    Fields.mapValues? g fields = Fields.mapValues? f fields := by
  induction fields with
  | nil => rfl
  | cons field rest ih =>
    obtain ⟨key, value⟩ := field
    rw [List.forall_mem_cons] at h
    rw [Fields.mapValues?_cons, Fields.mapValues?_cons, h.1, ih h.2]

theorem mapM_congr_of_mem {g f : Json → Option Json} {items : List Json}
    (h : ∀ item ∈ items, g item = f item) : items.mapM g = items.mapM f := by
  induction items with
  | nil => rfl
  | cons item rest ih =>
    rw [List.forall_mem_cons] at h
    rw [List.mapM_cons, List.mapM_cons, h.1, ih h.2]

theorem mergeFragments?_congr {depth : Nat} {followed : List String} {fragments : List Json}
    (h : ∀ fragment ∈ fragments, resolveFragment? left depth followed fragment =
      resolveFragment? right depth followed fragment) (merged : Option Fields) :
    fragments.foldlM (mergeFragment? left depth followed) merged =
      fragments.foldlM (mergeFragment? right depth followed) merged := by
  induction fragments generalizing merged with
  | nil => rfl
  | cons fragment rest ih =>
    rw [List.forall_mem_cons] at h
    have hstep : mergeFragment? left depth followed merged fragment =
        mergeFragment? right depth followed merged fragment := by
      unfold mergeFragment?
      rw [h.1]
    rw [List.foldlM_cons, List.foldlM_cons, hstep]
    exact Option.bind_congr fun next _ => ih h.2 next

theorem composedFields?_congr {depth : Nat} {followed : List String} {fields : Fields}
    (hfragment : ∀ fragment, RefersOnly p fragment →
      resolveFragment? left depth followed fragment = resolveFragment? right depth followed fragment)
    (h : RefersOnly p (.object fields)) :
    composedFields? left depth followed fields = composedFields? right depth followed fields := by
  unfold composedFields?
  split
  · rename_i fragments hfragments
    have hreferences := refersOnly_array.1 (refersOnly_of_get? h hfragments)
    rw [mergeFragments?_congr fun fragment hmem => hfragment fragment (hreferences fragment hmem)]
  · rfl

/-- Documents in which all references of a node lead to the same flatten it to the same. -/
theorem flattening_congr (hresolve : ∀ reference, p reference →
      left.resolve? reference = right.resolve? reference) (hleft : RefersOnly p left) (depth : Nat) :
    (∀ followed node, RefersOnly p node →
      flattenNode? left depth followed node = flattenNode? right depth followed node) ∧
    (∀ followed fragment, RefersOnly p fragment →
      resolveFragment? left depth followed fragment =
        resolveFragment? right depth followed fragment) := by
  induction depth with
  | zero => exact ⟨fun _ _ _ => rfl, fun _ _ _ => rfl⟩
  | succ depth ih =>
    obtain ⟨ihnode, ihfragment⟩ := ih
    refine ⟨fun followed node h => ?_, fun followed fragment h => ?_⟩
    · cases node with
      | object fields =>
        rw [flattenNode?_object, flattenNode?_object, ← composedFields?_congr (ihfragment followed) h]
        refine Option.bind_congr fun keywords hkeywords => ?_
        have hreferences := (inherited_refersOnly p).composedFields?
          ((refersOnly_flattening hleft depth).2 followed) h hkeywords
        refine congrArg _ (mapValues?_congr fun field hfield => ?_)
        unfold flattenField?
        rw [ihnode followed field.2 (refersOnly_object.1 hreferences field hfield).2]
      | array items =>
        rw [flattenNode?_array, flattenNode?_array]
        refine congrArg _ (mapM_congr_of_mem fun item hitem => ?_)
        exact ihnode followed item (refersOnly_array.1 h item hitem)
      | _ => rfl
    · unfold resolveFragment?
      split
      · rename_i reference hreference
        rw [← hresolve reference (h.reference hreference)]
        split
        · rfl
        · split
          · rename_i target htarget
            exact ihfragment _ target (hleft.resolved htarget)
          · rfl
      · rw [ihnode followed fragment h]

end

/-! ## Documents -/

/-- A reference that starts with another step. -/
def LeadsElsewhere (key : String) (reference : String) : Prop :=
  ∀ steps, pointerSteps? reference = some steps → ∃ first rest, steps = first :: rest ∧ first ≠ key

theorem nodeCountOfFields_append (front back : Fields) : Json.nodeCountOfFields (front ++ back) =
    Json.nodeCountOfFields front + Json.nodeCountOfFields back := by
  induction front with
  | nil => rw [List.nil_append, Json.nodeCountOfFields, Nat.zero_add]
  | cons field rest ih =>
    rw [List.cons_append, Json.nodeCountOfFields, Json.nodeCountOfFields, ih, Nat.add_assoc]

theorem nodeCountOfFields_perm {fields given : Fields} (h : fields.Perm given) :
    Json.nodeCountOfFields fields = Json.nodeCountOfFields given := by
  induction h with
  | nil => rfl
  | cons field _ ih => rw [Json.nodeCountOfFields, Json.nodeCountOfFields, ih]
  | swap one other rest =>
    rw [Json.nodeCountOfFields, Json.nodeCountOfFields, Json.nodeCountOfFields, Json.nodeCountOfFields]
    omega
  | trans _ _ ihone ihtwo => rw [ihone, ihtwo]

section

variable {first second : String} {step : Step} {steps : List Step} {left right : Json}

theorem Renamed.nodeCount (h : Renamed first second steps left right) :
    left.nodeCount = right.nodeCount := by
  induction h with
  | @entry others value hfirst hsecond _ _ =>
    rw [Json.nodeCount, Json.nodeCount, nodeCountOfFields_perm (Fields.perm_insert _ hfirst),
      nodeCountOfFields_perm (Fields.perm_insert _ hsecond)]
    rfl
  | step _ frame _ _ ih =>
    rw [Json.nodeCount, Json.nodeCount, Frame.fill, Frame.fill, nodeCountOfFields_append,
      nodeCountOfFields_append, Json.nodeCountOfFields, Json.nodeCountOfFields, ih]

theorem Renamed.resolve? (h : Renamed first second (step :: steps) left right) {reference : String}
    (hreference : LeadsElsewhere step.key reference) : left.resolve? reference = right.resolve? reference := by
  cases h with
  | step _ frame _ _ =>
    unfold Json.resolve?
    refine Option.bind_congr fun pointer hpointer => ?_
    obtain ⟨start, rest, rfl, hne⟩ := hreference pointer hpointer
    rw [Json.follow?, Json.follow?, Json.child?, Json.child?, frame.get?_fill _ hne,
      frame.get?_fill _ hne]

theorem Renamed.flattenCompositions (hpasses : isDataKeyword first = isDataKeyword second)
    (h : Renamed first second (step :: steps) left right)
    (hleft : RefersOnly (LeadsElsewhere step.key) left) (hright : RefersOnly (LeadsElsewhere step.key) right) :
    Renamed first second (step :: steps) (ApiContract.flattenCompositions left)
      (ApiContract.flattenCompositions right) := by
  have hsame : ApiContract.flattenNode? right (flattenDepth right) [] right =
      ApiContract.flattenNode? left (flattenDepth left) [] right := by
    have hdepth : flattenDepth right = flattenDepth left := by
      rw [flattenDepth, flattenDepth, h.nodeCount]
    rw [hdepth]
    exact ((flattening_congr (fun _ => h.resolve?) hleft (flattenDepth left)).1 [] right hright).symm
  unfold ApiContract.flattenCompositions
  rw [hsame]
  have hflat := h.flattenNode? hpasses left (flattenDepth left) []
  generalize ApiContract.flattenNode? left (flattenDepth left) [] left = l at hflat ⊢
  generalize ApiContract.flattenNode? left (flattenDepth left) [] right = r at hflat ⊢
  cases hflat with
  | none => exact h
  | some hrenamed => exact hrenamed

theorem refersOnly_flattenCompositions {p : String → Prop} (h : RefersOnly p left) :
    RefersOnly p (ApiContract.flattenCompositions left) := by
  unfold ApiContract.flattenCompositions
  cases hflat : ApiContract.flattenNode? left (flattenDepth left) [] left with
  | none => exact h
  | some flat => exact (refersOnly_flattening h _).1 [] left flat h hflat

end

end ApiContract
