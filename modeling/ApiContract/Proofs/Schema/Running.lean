import ApiContract.Proofs.Schema.Walking
import Mathlib.Data.List.Basic

/-! # Runs of the guard

The guard does not follow a reference that it is following, and the search for cases follows no reference
twice. Nothing else bounds them. Both end, on every document.

* `GuardRuns`: a run of the guard, with the list of the references that are being followed.
* `Searches`: a run of the search, with the list of the references that it has met.
* `guardRuns_violations`, `searches_searchCases`: there are runs, and these are the results.
* `guard_and_search_end`: the only ones. -/

set_option autoImplicit false

namespace ApiContract

/-! ## The run of the guard -/

section

variable {schema inst : Json}

/-- The guard applies a part of a schema, or a schema to a part of the instance. -/
inductive GuardApplies : Application schema inst → Prop where
  | case {tagged : String} {branch : Part schema} (h : selection schema inst = .case tagged branch) :
    GuardApplies (.here [casesKeyword, tagged] branch)
  | conjunct {a : Application schema inst} (h : a ∈ unconditional) : GuardApplies a
  | part {a : Application schema inst} (h : a ∈ guardedParts) : GuardApplies a

/-- The violations of a schema, from those of the applications. -/
def guardOutcome (place : SchemaPlace) (path : List String)
    (outcome : Application schema inst → List Violation) : List Violation :=
  (match selection schema inst with
    | .nothing => []
    | .case tagged branch => outcome (.here [casesKeyword, tagged] branch)
    | .fault message =>
      [⟨some "discriminator", message, some (place.child ["discriminator"]).text, pointerText path⟩]) ++
    unconditional.flatMap outcome ++ guardedParts.flatMap outcome

theorem guardOutcome_congr {place : SchemaPlace} {path : List String}
    {first second : Application schema inst → List Violation}
    (h : ∀ a, GuardApplies a → first a = second a) :
    guardOutcome place path first = guardOutcome place path second := by
  have hselected : ∀ tagged branch, selection schema inst = .case tagged branch →
      first (.here [casesKeyword, tagged] branch) = second (.here [casesKeyword, tagged] branch) :=
    fun tagged branch hcase => h _ (.case hcase)
  have hall := List.flatMap_congr fun a ha => h a (.conjunct ha)
  have hparts := List.flatMap_congr fun a ha => h a (.part ha)
  unfold guardOutcome
  rw [hall, hparts]
  cases hselection : selection schema inst with
  | case tagged branch => simp only [hselected tagged branch hselection]
  | _ => rfl

end

/-- The guard has run through a schema and an instance and found violations. `seen` holds the references
that it is following; a part of the instance starts without any. -/
inductive GuardRuns (root : Json) :
    List String → SchemaPlace → List String → Json → Json → List Violation → Prop where
  | plain {seen path : List String} {place : SchemaPlace} {schema inst : Json}
    (h : schema.isObject = false) : GuardRuns root seen place path schema inst []
  | again {seen path : List String} {place : SchemaPlace} {schema inst : Json} {reference : String}
    (href : schema.reference? = some reference) (hseen : reference ∈ seen) :
    GuardRuns root seen place path schema inst []
  | dangling {seen path : List String} {place : SchemaPlace} {schema inst : Json} {reference : String}
    (href : schema.reference? = some reference) (hseen : reference ∉ seen)
    (hnone : root.resolve? reference = none) : GuardRuns root seen place path schema inst []
  | target {seen path : List String} {place : SchemaPlace} {schema inst target : Json} {reference : String}
    {violations : List Violation} (href : schema.reference? = some reference) (hseen : reference ∉ seen)
    (htarget : root.resolve? reference = some target)
    (h : GuardRuns root (reference :: seen) ⟨reference, []⟩ path target inst violations) :
    GuardRuns root seen place path schema inst violations
  | keywords {seen path : List String} {place : SchemaPlace} {schema inst : Json}
    (hobject : schema.isObject = true) (href : schema.reference? = none)
    (outcome : Application schema inst → List Violation)
    (hhere : ∀ steps part, GuardApplies (.here steps part : Application schema inst) →
      GuardRuns root seen (place.child steps) path part.value inst (outcome (.here steps part)))
    (hinside : ∀ steps sub inner part, GuardApplies (.inside steps sub inner part : Application schema inst) →
      GuardRuns root [] (place.child steps) (path ++ inner) sub part.value
        (outcome (.inside steps sub inner part))) :
    GuardRuns root seen place path schema inst (guardOutcome place path outcome)

section

variable {root schema inst : Json} {known seen path : List String} {place : SchemaPlace} {stop : Stop}

theorem isObject_of_reference? {value : Json} {reference : String} (h : value.reference? = some reference) :
    value.isObject = true := by
  cases value with
  | object fields => rfl
  | _ => cases h

/-- A run has one result. -/
theorem GuardRuns.unique {first second : List Violation}
    (h : GuardRuns root seen place path schema inst first)
    (h' : GuardRuns root seen place path schema inst second) : first = second := by
  induction h generalizing second with
  | plain hplain =>
    cases h' with
    | plain => rfl
    | again => rfl
    | dangling => rfl
    | target href => rw [isObject_of_reference? href] at hplain; cases hplain
    | keywords hobject => rw [hobject] at hplain; cases hplain
  | again href hseen =>
    cases h' with
    | target href' hseen' =>
      cases href.symm.trans href'
      exact absurd hseen hseen'
    | keywords _ href' => cases href.symm.trans href'
    | _ => rfl
  | dangling href _ hnone =>
    cases h' with
    | target href' _ htarget =>
      cases href.symm.trans href'
      cases hnone.symm.trans htarget
    | keywords _ href' => cases href.symm.trans href'
    | _ => rfl
  | target href hseen htarget _ ih =>
    cases h' with
    | plain hplain => rw [isObject_of_reference? href] at hplain; cases hplain
    | again href' hseen' =>
      cases href.symm.trans href'
      exact absurd hseen' hseen
    | dangling href' _ hnone =>
      cases href.symm.trans href'
      cases hnone.symm.trans htarget
    | target href' _ htarget' h' =>
      cases href.symm.trans href'
      cases htarget.symm.trans htarget'
      exact ih h'
    | keywords _ href' => cases href.symm.trans href'
  | keywords hobject href outcome _ _ ihhere ihinside =>
    cases h' with
    | plain hplain => rw [hobject] at hplain; cases hplain
    | again href' => cases href.symm.trans href'
    | dangling href' => cases href.symm.trans href'
    | target href' => cases href.symm.trans href'
    | keywords _ _ other hhere hinside =>
      refine guardOutcome_congr fun a ha => ?_
      cases a with
      | here steps part => exact ihhere steps part ha (hhere steps part ha)
      | inside steps sub inner part => exact ihinside steps sub inner part ha (hinside steps sub inner part ha)

/-! ## The result of the guard -/

theorem guardStep_of_applied (root : Json) (known : List String)
    {a : Application stop.schema stop.value} (href : stop.schema.reference? = none) (h : GuardApplies a) :
    GuardStep root known stop (stop.apply known a) := by
  rw [guardStep_iff_of_no_reference href]
  cases h with
  | case hcase => exact .inl ⟨_, _, hcase, rfl⟩
  | conjunct hmem => exact .inr (.inl ⟨a, hmem, rfl⟩)
  | part hmem => exact .inr (.inr ⟨a, hmem, rfl⟩)

theorem Json.allReferences_subset_of_leads {whole part : Json} {steps : List String}
    (h : whole.Leads steps part) : part.allReferences ⊆ whole.allReferences := by
  induction h with
  | here => exact List.Subset.refl _
  | member hmem _ ih => exact List.Subset.trans ih (Json.allReferences_subset_of_mem hmem)
  | item hitem _ ih =>
    exact List.Subset.trans ih (Json.allReferences_subset_of_item (List.mem_of_getElem? hitem))

theorem GuardStep.references_subset {next : Stop} (hstep : GuardStep root known stop next)
    (h : stop.schema.allReferences ⊆ root.allReferences) :
    next.schema.allReferences ⊆ root.allReferences := by
  rcases hstep.moves with ⟨_, -, -, htarget⟩ | ⟨_, -, hleads⟩
  · exact Json.allReferences_subset_of_resolve? htarget
  · exact List.Subset.trans (Json.allReferences_subset_of_leads hleads) h

theorem violations_eq_guardOutcome (hobject : stop.schema.isObject = true)
    (href : stop.schema.reference? = none) : stop.violations root known =
      guardOutcome stop.place stop.path fun a => (stop.apply known a).violations root known := by
  rw [Stop.violations, guardWith, if_pos hobject, href]
  refine congrArg₂ (· ++ ·) (congrArg₂ (· ++ ·) ?_ (List.flatMap_congr fun a _ => ?_))
    (List.flatMap_congr fun a _ => ?_)
  · cases selection stop.schema stop.value <;> rfl
  all_goals cases a <;> rfl

/-- The guard runs to its end, if the references that it may still follow are those that are not being
followed. A step of the run is a step to a smaller stop. -/
theorem guardRuns_violations (root : Json) (seen : List String) (stop : Stop)
    (hpool : Unfollowed root.references seen stop.pool)
    (hsub : stop.schema.allReferences ⊆ root.allReferences) :
    GuardRuns root seen stop.place stop.path stop.schema stop.value
      (stop.violations root root.references) := by
  by_cases hobject : stop.schema.isObject = true
  · cases href : stop.schema.reference? with
    | none =>
      rw [violations_eq_guardOutcome hobject href]
      refine .keywords hobject href _ (fun steps part ha => ?_) fun steps sub inner part ha => ?_
      · have hstep := guardStep_of_applied root root.references href ha
        have hsmaller := hstep.smaller
        exact guardRuns_violations root seen (stop.apply root.references (.here steps part)) hpool
          (hstep.references_subset hsub)
      · have hstep := guardStep_of_applied root root.references href ha
        have hsmaller := hstep.smaller
        exact guardRuns_violations root [] (stop.apply root.references (.inside steps sub inner part))
          (.refl _) (hstep.references_subset hsub)
    | some reference =>
      have hknown : reference ∈ root.references :=
        Json.mem_references.2 (hsub (Json.reference?_mem_allReferences href))
      rw [Stop.violations, guardWith, if_pos hobject, href]
      by_cases hmem : reference ∈ stop.pool
      · cases htarget : root.resolve? reference with
        | none => simpa [hmem, htarget] using .dangling href ((hpool _ hknown).1 hmem) htarget
        | some target =>
          have hstep : GuardStep root root.references stop
              ⟨⟨withoutReference reference stop.pool, stop.path, target, stop.value⟩, ⟨reference, []⟩⟩ :=
            .reference href hmem htarget
          have hsmaller := hstep.smaller
          have hrun := guardRuns_violations root (reference :: seen)
            ⟨⟨withoutReference reference stop.pool, stop.path, target, stop.value⟩, ⟨reference, []⟩⟩
            (hpool.follow reference) (hstep.references_subset hsub)
          simpa [hmem, htarget] using .target href ((hpool _ hknown).1 hmem) htarget hrun
      · simpa [hmem] using .again href (hpool.mem_followed hknown hmem)
  · rw [Bool.not_eq_true] at hobject
    rw [Stop.violations, guardWith, if_neg (by simp [hobject])]
    exact .plain hobject
termination_by (sizeOf stop.value, stop.pool.length, sizeOf stop.schema)
decreasing_by all_goals exact hsmaller

end

/-! ## The run of the search -/

/-- The values of an object that the search goes through. -/
def searchedMembers (fields : Fields) : List Json :=
  (fields.filter fun field => !isDataKeyword field.1).map Prod.snd

mutual

/-- The search has run through a value and found cases, or not. It starts with the references that it has
met before, and ends with more of them. -/
inductive Searches (root : Json) : List String → Json → Bool → List String → Prop where
  | plain {met : List String} {value : Json} (hobject : value.fields? = none) (hlist : value.items? = none) :
    Searches root met value false met
  | cases {met : List String} {fields : Fields} (hcases : fields.hasKey casesKeyword = true) :
    Searches root met (.object fields) true met
  | again {met : List String} {fields : Fields} {reference : String}
    (hcases : fields.hasKey casesKeyword = false) (href : (Json.object fields).reference? = some reference)
    (hmet : reference ∈ met) : Searches root met (.object fields) false met
  | reference {met last : List String} {fields : Fields} {reference : String} {found : Bool}
    (hcases : fields.hasKey casesKeyword = false) (href : (Json.object fields).reference? = some reference)
    (hmet : reference ∉ met) (h : SearchesAny root (reference :: met)
      ((root.resolve? reference).toList ++ searchedMembers fields) found last) :
    Searches root met (.object fields) found last
  | members {met last : List String} {fields : Fields} {found : Bool}
    (hcases : fields.hasKey casesKeyword = false) (href : (Json.object fields).reference? = none)
    (h : SearchesAny root met (searchedMembers fields) found last) :
    Searches root met (.object fields) found last
  | items {met last : List String} {items : List Json} {found : Bool}
    (h : SearchesAny root met items found last) : Searches root met (.array items) found last

/-- The search goes through one value after the other until it finds cases. -/
inductive SearchesAny (root : Json) : List String → List Json → Bool → List String → Prop where
  | nil (met : List String) : SearchesAny root met [] false met
  | found {met last : List String} {value : Json} {rest : List Json}
    (h : Searches root met value true last) : SearchesAny root met (value :: rest) true last
  | next {met middle last : List String} {value : Json} {rest : List Json} {found : Bool}
    (h : Searches root met value false middle) (hrest : SearchesAny root middle rest found last) :
    SearchesAny root met (value :: rest) found last

end

section

variable {root : Json}

/-- A run has one result, by induction on both kinds of runs at once. -/
theorem Searches.unique {met last other : List String} {value : Json} {found again : Bool}
    (h : Searches root met value found last) (h' : Searches root met value again other) :
    found = again ∧ last = other := by
  refine @Searches.rec root
    (fun met value found last _ => ∀ again other, Searches root met value again other →
      found = again ∧ last = other)
    (fun met values found last _ => ∀ again other, SearchesAny root met values again other →
      found = again ∧ last = other)
    ?plain ?cases ?again ?reference ?members ?items ?nil ?found ?next _ _ _ _ h again other h'
  case plain =>
    intro met value hobject hlist again other h'
    cases h' with
    | plain => exact ⟨rfl, rfl⟩
    | items => cases hlist
    | _ => cases hobject
  case cases =>
    intro met fields hcases again other h'
    cases h' with
    | plain hobject => cases hobject
    | cases => exact ⟨rfl, rfl⟩
    | again hnone => cases hcases.symm.trans hnone
    | reference hnone => cases hcases.symm.trans hnone
    | members hnone => cases hcases.symm.trans hnone
  case again =>
    intro met fields reference hcases href hmet again other h'
    cases h' with
    | plain hobject => cases hobject
    | cases hsome => cases hcases.symm.trans hsome
    | again => exact ⟨rfl, rfl⟩
    | reference _ href' hmet' =>
      cases href.symm.trans href'
      exact absurd hmet hmet'
    | members _ href' => cases href.symm.trans href'
  case reference =>
    intro met last fields reference found hcases href hmet _ ih again other h'
    cases h' with
    | plain hobject => cases hobject
    | cases hsome => cases hcases.symm.trans hsome
    | again _ href' hmet' =>
      cases href.symm.trans href'
      exact absurd hmet' hmet
    | reference _ href' _ h' =>
      cases href.symm.trans href'
      exact ih _ _ h'
    | members _ href' => cases href.symm.trans href'
  case members =>
    intro met last fields found hcases href _ ih again other h'
    cases h' with
    | plain hobject => cases hobject
    | cases hsome => cases hcases.symm.trans hsome
    | again _ href' => cases href.symm.trans href'
    | reference _ href' => cases href.symm.trans href'
    | members _ _ h' => exact ih _ _ h'
  case items =>
    intro met last items found _ ih again other h'
    cases h' with
    | plain _ hlist => cases hlist
    | items h' => exact ih _ _ h'
  case nil =>
    intro met again other h'
    cases h'
    exact ⟨rfl, rfl⟩
  case found =>
    intro met last value rest _ ih again other h'
    cases h' with
    | found h' => exact ih _ _ h'
    | next h' => cases (ih _ _ h').1
  case next =>
    intro met middle last value rest found _ _ ih ihrest again other h'
    cases h' with
    | found h' => cases (ih _ _ h').1
    | next h' hrest' =>
      cases (ih _ _ h').2
      exact ihrest _ _ hrest'

/-! ## The result of the search -/

/-- What a run finds, and the references that it leaves if it finds nothing. -/
def Concludes {limit : Nat} (known : List String) (run : Bool → List String → Prop) :
    Option (Unvisited limit) → Prop
  | none => ∃ last, run true last
  | some left => ∃ last, run false last ∧ Unfollowed known last left.1

section

variable {known met : List String} {limit less : Nat}

theorem Concludes.imp {run other : Bool → List String → Prop} {result : Option (Unvisited limit)}
    (h : Concludes known run result) (hrun : ∀ found last, run found last → other found last) :
    Concludes known other result := by
  cases result with
  | none =>
    obtain ⟨last, hlast⟩ := h
    exact ⟨last, hrun _ _ hlast⟩
  | some left =>
    obtain ⟨last, hlast, hleft⟩ := h
    exact ⟨last, hrun _ _ hlast, hleft⟩

theorem Concludes.widen {run : Bool → List String → Prop} {result : Option (Unvisited less)}
    (h : Concludes known run result) (hlimit : ∀ left : Unvisited less, left.1.length ≤ limit) :
    Concludes known run (result.map fun left => (⟨left.1, hlimit left⟩ : Unvisited limit)) := by
  cases result <;> exact h

theorem Concludes.next {value : Json} {rest : List Json} {result : Option (Unvisited less)}
    {continuation : Unvisited less → Option (Unvisited limit)}
    (h : Concludes known (Searches root met value) result)
    (hrest : ∀ left middle, Unfollowed known middle left.1 →
      Concludes known (SearchesAny root middle rest) (continuation left)) :
    Concludes known (SearchesAny root met (value :: rest)) (result.bind continuation) := by
  cases result with
  | none =>
    obtain ⟨last, hlast⟩ := h
    exact ⟨last, .found hlast⟩
  | some left =>
    obtain ⟨middle, hmiddle, hleft⟩ := h
    exact (hrest left middle hleft).imp fun _ _ hlast => .next hmiddle hlast

/-- One value after the other, some of which are passed over. -/
theorem concludes_foldlM {α : Type} {step : Unvisited limit → α → Option (Unvisited limit)}
    (entered : α → Bool) (held : α → Json) {entries : List α}
    (hpassed : ∀ left a, entered a = false → step left a = some left)
    (hstep : ∀ left a met, a ∈ entries → entered a = true → Unfollowed known met left.1 →
      Concludes known (Searches root met (held a)) (step left a))
    (start : Unvisited limit) (hstart : Unfollowed known met start.1) :
    Concludes known (SearchesAny root met ((entries.filter entered).map held))
      (entries.foldlM step start) := by
  induction entries generalizing start met with
  | nil => exact ⟨met, .nil met, hstart⟩
  | cons a rest ih =>
    have ihrest : ∀ start met, Unfollowed known met start.1 →
        Concludes known (SearchesAny root met ((rest.filter entered).map held)) (rest.foldlM step start) :=
      fun start met => ih (fun left b met hb => hstep left b met (List.mem_cons_of_mem _ hb)) start
    rw [List.foldlM_cons, Option.bind_eq_bind]
    cases hentered : entered a with
    | false =>
      rw [hpassed start a hentered, List.filter_cons_of_neg (by simp [hentered])]
      exact ihrest start met hstart
    | true =>
      rw [List.filter_cons_of_pos hentered, List.map_cons]
      exact (hstep start a met (List.mem_cons_self ..) hentered hstart).next ihrest

end

theorem searchedMembers_eq (fields : Fields) : searchedMembers fields =
    ((Json.fieldParts (.object fields)).filter fun entry => !isDataKeyword entry.1).map
      fun entry => entry.2.value := by
  have hfields : (Json.fieldParts (.object fields)).map (fun entry => (entry.1, entry.2.value)) = fields := by
    simp only [Json.fieldParts, List.map_map]
    exact List.attach_map_subtype_val fields
  conv_lhs => rw [searchedMembers, ← hfields, List.filter_map, List.map_map]
  rfl

/-- The members of an object, as the search goes through them. -/
theorem concludes_members {fields : Fields} {met : List String} {limit : Nat}
    (ih : ∀ (left : Unvisited limit) (entry : String × Part (.object fields)) met,
      Unfollowed root.references met left.1 → entry.2.value.allReferences ⊆ root.allReferences →
        Concludes root.references (Searches root met entry.2.value) (searchCases root left.1 entry.2.value))
    (hsub : (Json.object fields).allReferences ⊆ root.allReferences) (start : Unvisited limit)
    (hstart : Unfollowed root.references met start.1) :
    Concludes root.references (SearchesAny root met (searchedMembers fields))
      ((Json.fieldParts (.object fields)).foldlM (fun (left : Unvisited limit) entry =>
        if isDataKeyword entry.1 then some left
        else
          (searchCases root left.1 entry.2.value).map fun next =>
            (⟨next.1, Nat.le_trans next.2 left.2⟩ : Unvisited limit)) start) := by
  rw [searchedMembers_eq]
  refine concludes_foldlM (α := String × Part (.object fields)) (fun entry => !isDataKeyword entry.1)
    (fun entry => entry.2.value) (fun left entry hdata => if_pos (by simpa using hdata))
    (fun left entry met hmem hschema hleft => ?_) start hstart
  obtain ⟨own, hown, hmember⟩ := Json.mem_fieldParts.1 hmem
  cases hown
  have hvalue := ih left entry met hleft
    (List.Subset.trans (Json.allReferences_subset_of_mem hmember) hsub)
  rw [if_neg (by simpa using hschema)]
  exact hvalue.widen fun next => Nat.le_trans next.2 left.2

/-- The search runs to its end, if the references that it may still follow are those that it has not
met. -/
theorem searches_searchCases (root : Json) (met pool : List String) (value : Json)
    (hpool : Unfollowed root.references met pool) (hsub : value.allReferences ⊆ root.allReferences) :
    Concludes root.references (Searches root met value) (searchCases root pool value) := by
  induction pool, value using searchCases.induct root generalizing met with
  | case1 pool fields hcases =>
    rw [searchCases, if_pos hcases]
    exact ⟨met, .cases hcases⟩
  | case2 pool fields hcases href ih =>
    rw [searchCases, if_neg hcases, href]
    rw [Bool.not_eq_true] at hcases
    have hmembers := concludes_members (fun left entry met => ih left entry met) hsub
      ⟨pool, Nat.le_refl _⟩ hpool
    exact hmembers.imp fun _ _ h => .members hcases href h
  | case3 pool fields hcases reference href hmem hshorter hnone ih =>
    rw [searchCases, if_neg hcases, href]
    rw [Bool.not_eq_true] at hcases
    have hknown := Json.mem_references.2 (hsub (Json.reference?_mem_allReferences href))
    have hmembers := concludes_members (fun left entry met => ih left entry met) hsub
      ⟨withoutReference reference pool, Nat.le_of_lt hshorter⟩ (hpool.follow reference)
    simp only [hmem, dite_true, hnone]
    exact hmembers.imp fun _ _ h => .reference hcases href ((hpool _ hknown).1 hmem) (by simpa [hnone])
  | case4 pool fields hcases reference href hmem hshorter target htarget ih ihtarget =>
    rw [searchCases, if_neg hcases, href]
    rw [Bool.not_eq_true] at hcases
    have hknown := Json.mem_references.2 (hsub (Json.reference?_mem_allReferences href))
    have hfirst := ihtarget (reference :: met) (hpool.follow reference)
      (Json.allReferences_subset_of_resolve? htarget)
    have hall := hfirst.next fun left middle hleft =>
      concludes_members (fun left entry met => ih left entry met) hsub
        ⟨left.1, Nat.le_trans left.2 (Nat.le_of_lt hshorter)⟩ hleft
    simp only [hmem, dite_true, htarget]
    exact hall.imp fun _ _ h => .reference hcases href ((hpool _ hknown).1 hmem) (by simpa [htarget])
  | case5 pool fields hcases reference href hmem =>
    rw [searchCases, if_neg hcases, href]
    rw [Bool.not_eq_true] at hcases
    have hknown := Json.mem_references.2 (hsub (Json.reference?_mem_allReferences href))
    simp only [hmem, dite_false]
    exact ⟨met, .again hcases href (hpool.mem_followed hknown hmem), hpool⟩
  | case6 pool items ih =>
    rw [searchCases]
    have hstep : ∀ (left : Unvisited pool.length) (part : Part (.array items)) met,
        part ∈ Json.itemParts (.array items) → true = true → Unfollowed root.references met left.1 →
          Concludes root.references (Searches root met part.value)
            ((searchCases root left.1 part.value).map fun next =>
              (⟨next.1, Nat.le_trans next.2 left.2⟩ : Unvisited pool.length)) := by
      intro left part met hpart _ hleft
      obtain ⟨own, hown, hmember⟩ := Json.mem_itemParts.1 hpart
      cases hown
      have hvalue := ih left part met hleft
        (List.Subset.trans (Json.allReferences_subset_of_item hmember) hsub)
      exact hvalue.widen fun next => Nat.le_trans next.2 left.2
    have hitems := concludes_foldlM (fun _ => true) Part.value (fun _ _ hfalse => by cases hfalse) hstep
      ⟨pool, Nat.le_refl _⟩ hpool
    rw [List.filter_true, map_itemParts] at hitems
    exact hitems.imp fun _ _ h => .items h
  | case7 pool value hobject hlist =>
    have hend : searchCases root pool value = some ⟨pool, Nat.le_refl _⟩ := by
      cases value with
      | object fields => exact absurd rfl (hobject fields)
      | array items => exact absurd rfl (hlist items)
      | _ => rw [searchCases] <;> simp
    rw [hend]
    refine ⟨met, .plain ?_ ?_, hpool⟩
    · cases value with
      | object fields => exact absurd rfl (hobject fields)
      | _ => rfl
    · cases value with
      | array items => exact absurd rfl (hlist items)
      | _ => rfl

/-! ## Both -/

theorem allReferences_withoutComponents (root : Json) :
    (withoutComponents root).allReferences ⊆ root.allReferences := by
  cases root with
  | object fields =>
    intro reference hmem
    rw [withoutComponents, Json.allReferences, Json.mem_allReferencesOfFields] at hmem
    rw [Json.allReferences, Json.mem_allReferencesOfFields]
    refine hmem.imp List.mem_of_mem_filter ?_
    rintro ⟨field, hfield, hreference⟩
    exact ⟨field, List.mem_of_mem_filter hfield, hreference⟩
  | _ => exact List.Subset.refl _

/-- On every document the guard and the search for cases end, each with one result. These are the
violations of the guard, and whether there is something to guard. -/
theorem guard_and_search_end (root : Json) (name : String) (inst : Json) :
    (∀ violations, GuardRuns root [] ⟨name, []⟩ [] root inst violations ↔
      violations = guardViolations root name inst) ∧
    ∃ met, ∀ found last, Searches root [] (withoutComponents root) found last ↔
      found = reachesDiscriminator root ∧ last = met := by
  have hguard := guardRuns_violations root [] (.start root name inst) (.refl _) (List.Subset.refl _)
  have hsearch : ∃ met, Searches root [] (withoutComponents root) (reachesDiscriminator root) met := by
    have h := searches_searchCases root [] root.references (withoutComponents root) (.refl _)
      (allReferences_withoutComponents root)
    unfold reachesDiscriminator
    cases hresult : searchCases root root.references (withoutComponents root) with
    | none =>
      rw [hresult] at h
      exact h
    | some left =>
      rw [hresult] at h
      obtain ⟨met, hmet, -⟩ := h
      exact ⟨met, hmet⟩
  obtain ⟨met, hmet⟩ := hsearch
  refine ⟨fun violations => ⟨fun h => h.unique hguard, ?_⟩, met, fun found last => ⟨fun h => h.unique hmet, ?_⟩⟩
  · rintro rfl
    exact hguard
  · rintro ⟨rfl, rfl⟩
    exact hmet

end

end ApiContract
