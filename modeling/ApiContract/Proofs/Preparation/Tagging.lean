import ApiContract.Proofs.Preparation.Undiscriminated
import Mathlib.Data.List.Find

/-! # Alternatives with tags

An alternative that requires the tag of a discriminator and allows it some texts is found in the table of
cases under these texts, and no value without one of them satisfies it.

* `HasTags`: an object schema that requires a tag and allows it some texts.
* `IsAlternative`: such a schema, in place or behind a reference that is kept.
* `exists_addBranches_iff`, `get?_addBranches`: the table has each text under the first alternative that
  claims it.
* `ordered_nodeWithCases`: cases keep the keys in order. -/

set_option autoImplicit false

namespace ApiContract

/-! ## Texts of the tag -/

/-- Keywords that allow some texts and nothing else. -/
structure AllowsTexts (texts : List String) (keywords : Fields) : Prop where
  own : ∀ reference, keywords.get? "$ref" ≠ some (.string reference)
  inhabited : texts ≠ []
  values : (∃ text, keywords.get? "const" = some (.string text) ∧ texts = [text]) ∨
    keywords.get? "const" = none ∧ keywords.get? "enum" = some (.array (texts.map .string))

section

variable {root inst : Json} {known pool : List String} {tag : String} {texts : List String}
  {keywords : Fields}

theorem AllowsTexts.allowedTags (h : AllowsTexts texts keywords) :
    allowedTags (.object keywords) = texts := by
  unfold ApiContract.allowedTags Json.get?
  rcases h.values with ⟨text, hconst, rfl⟩ | ⟨hconst, henum⟩
  · simp only [hconst]
  · simp only [hconst, henum]
    rw [List.filterMap_map]
    exact List.filterMap_some

theorem holds_enum_texts :
    Assertion.Holds "enum" (.array (texts.map .string)) inst ↔ ∃ text ∈ texts, inst = .string text := by
  show (∃ value ∈ texts.map Json.string, value.sameValue inst = true) ↔ _
  constructor
  · rintro ⟨value, hvalue, hsame⟩
    obtain ⟨text, htext, rfl⟩ := List.mem_map.1 hvalue
    exact ⟨text, htext, Evaluation.holds_const.1 hsame⟩
  · rintro ⟨text, htext, rfl⟩
    exact ⟨.string text, List.mem_map_of_mem htext, Evaluation.holds_const.2 rfl⟩

theorem AllowsTexts.exists_text (h : AllowsTexts texts keywords)
    (hordered : (Json.object keywords).ordered = true) (hinst : inst.ordered = true)
    (hpasses : Evaluation.Passes root known pool (.object keywords) inst) :
    ∃ text ∈ texts, inst = .string text := by
  have hasserts := ((Evaluation.passes_iff_fulfils hordered hinst h.own).1 hpasses).asserts
  rcases h.values with ⟨text, hconst, rfl⟩ | ⟨-, henum⟩
  · exact ⟨text, List.mem_singleton.2 rfl, Evaluation.holds_const.1 (hasserts _ _ hconst).1⟩
  · exact holds_enum_texts.1 (hasserts _ _ henum).1

/-! ## Schemas with tags -/

/-- An object schema that requires a tag and allows it some texts. -/
structure HasTags (tag : String) (texts : List String) (keywords : Fields) : Prop where
  own : ∀ reference, keywords.get? "$ref" ≠ some (.string reference)
  object : ∃ type, keywords.get? "type" = some type ∧ Assertion.typeNames type = ["object"]
  required : ∃ names, keywords.get? "required" = some (.array names) ∧ .string tag ∈ names
  allowed : ∃ schema, declaredProperty? keywords tag = some (.object schema) ∧ AllowsTexts texts schema

theorem HasTags.inhabited (h : HasTags tag texts keywords) : texts ≠ [] := by
  obtain ⟨schema, -, hallows⟩ := h.allowed
  exact hallows.inhabited

theorem isObject_of_holds_type {type : Json} (hnames : Assertion.typeNames type = ["object"])
    (h : Assertion.Holds "type" type inst) : inst.isObject = true := by
  obtain ⟨kind, hname, hholds⟩ := h
  rw [hnames] at hname
  exact Evaluation.holds_objectType.1 ⟨kind, hname, hholds⟩

/-- What satisfies a schema with tags is an object with one of them. -/
theorem HasTags.exists_tag (h : HasTags tag texts keywords)
    (hordered : (Json.object keywords).ordered = true) (hinst : inst.ordered = true)
    (hpasses : Evaluation.Passes root known pool (.object keywords) inst) :
    ∃ text ∈ texts, inst.getString? tag = some text := by
  have hfulfils := (Evaluation.passes_iff_fulfils hordered hinst h.own).1 hpasses
  obtain ⟨type, htype, hnames⟩ := h.object
  obtain ⟨names, hrequired, htag⟩ := h.required
  obtain ⟨schema, hschema, hallows⟩ := h.allowed
  have hobject := isObject_of_holds_type hnames (hfulfils.asserts _ _ htype).1
  cases inst with
  | object fields =>
    have hholds : ∀ name, .string name ∈ names → Fields.hasKey fields name = true :=
      (hfulfils.asserts _ _ hrequired).1
    obtain ⟨held, hheld⟩ := Fields.hasKey_iff.1 (hholds tag htag)
    have hmem := Fields.mem_of_get? hheld
    have hsub : .object schema ∈ propertySchemas keywords tag :=
      List.mem_append_left _ (Option.mem_toList.2 hschema)
    obtain ⟨text, htext, rfl⟩ := hallows.exists_text ((beneath_of_propertySchemas hsub).ordered hordered)
      ((Json.ordered_object.1 hinst).2 _ hmem) ((hfulfils.members fields rfl tag held hmem).1 _ hsub)
    refine ⟨text, htext, ?_⟩
    rw [Json.getString?, Json.get?, hheld]
    rfl
  | _ => cases hobject

end

/-! ## References that are kept -/

/-- A reference into the components, to a schema without discriminators that stays where it is when others
get cases. -/
structure KeptReference (components : Json) (reference : String) (target : Json) : Prop where
  plain : IsPlainReference reference
  undiscriminated : Undiscriminated target
  steps : ∃ steps, pointerSteps? reference = some ("components" :: steps) ∧
    components.follow? steps = some target ∧ Lasts KeptLast components steps

section

variable {document root components target : Json} {reference : String}

theorem resolve?_of_components {steps : List String} (hcomponents : root.get? "components" = some components)
    (hsteps : pointerSteps? reference = some ("components" :: steps)) :
    root.resolve? reference = components.follow? steps := by
  have hchild : root.child? "components" = some components := by
    cases root with
    | object fields => exact hcomponents
    | _ => cases hcomponents
  rw [Json.resolve?, hsteps, Option.bind_some, Json.follow?, hchild, Option.bind_some]

theorem KeptReference.resolve? (h : KeptReference components reference target)
    (hcomponents : root.get? "components" = some components) : root.resolve? reference = some target := by
  obtain ⟨steps, hsteps, hfollow, -⟩ := h.steps
  rw [resolve?_of_components hcomponents hsteps, hfollow]

/-- The reference leads to the same schema among the components with cases. -/
theorem KeptReference.resolve?_withCases (h : KeptReference components reference target)
    (hcomponents : root.get? "components" = some (nodeWithCases document components)) :
    root.resolve? reference = some target := by
  obtain ⟨steps, hsteps, hfollow, hlasts⟩ := h.steps
  rw [resolve?_of_components hcomponents hsteps, follow?_nodeWithCases hlasts hfollow h.undiscriminated]

end

/-! ## Alternatives -/

/-- A schema with tags, in place or behind a reference. -/
inductive IsAlternative (components : Json) (tag : String) (texts : List String) : Json → Prop where
  | inline {keywords : Fields} (h : HasTags tag texts keywords) :
    IsAlternative components tag texts (.object keywords)
  | reference {keywords target : Fields} {reference : String}
    (href : keywords.get? "$ref" = some (.string reference))
    (htarget : KeptReference components reference (.object target)) (h : HasTags tag texts target) :
    IsAlternative components tag texts (.object keywords)

section

variable {document root components branch inst : Json} {tag : String} {texts : List String}
  {keywords : Fields}

theorem HasTags.get?_allowed (h : HasTags tag texts keywords) :
    ∃ schema, ((Json.object keywords).get? "properties").bind (·.get? tag) = some (.object schema) ∧
      AllowsTexts texts schema := by
  obtain ⟨schema, hschema, hallows⟩ := h.allowed
  obtain ⟨properties, hproperties, hname⟩ := declaredProperty?_eq_some.1 hschema
  exact ⟨schema, Option.bind_eq_some_iff.2 ⟨.object properties, hproperties, hname⟩, hallows⟩

/-- The tags of an alternative are the texts that its schema allows the tag. -/
theorem IsAlternative.branchTags (hcomponents : document.get? "components" = some components)
    (h : IsAlternative components tag texts branch) : branchTags document tag branch = texts := by
  cases h with
  | inline h =>
    have href := reference?_object.2 h.own
    obtain ⟨schema, hschema, hallows⟩ := h.get?_allowed
    unfold ApiContract.branchTags
    rw [href]
    simp only [hschema, hallows.allowedTags, List.isEmpty_iff, hallows.inhabited, if_false]
  | @reference keywords target reference href htarget h =>
    have hreference : (Json.object keywords).reference? = some reference := by
      rw [Json.reference?, Json.getString?, Json.get?, href]
      rfl
    obtain ⟨schema, hschema, hallows⟩ := h.get?_allowed
    unfold ApiContract.branchTags
    rw [hreference]
    simp only [htarget.resolve? hcomponents, Option.getD_some, hschema, hallows.allowedTags,
      List.isEmpty_iff, hallows.inhabited, if_false]

theorem IsAlternative.inhabited (h : IsAlternative components tag texts branch) : texts ≠ [] := by
  cases h with
  | inline h => exact h.inhabited
  | reference _ _ h => exact h.inhabited

/-- What satisfies an alternative is an object with one of its tags. -/
theorem IsAlternative.exists_tag (hroot : root.ordered = true)
    (hcomponents : root.get? "components" = some components) (hbranch : branch.ordered = true)
    (hknown : branch.allReferences ⊆ root.allReferences) (hinst : inst.ordered = true)
    (h : IsAlternative components tag texts branch) (haccepts : Evaluation.Accepts root branch inst) :
    ∃ text ∈ texts, inst.getString? tag = some text := by
  cases h with
  | inline h => exact h.exists_tag hbranch hinst haccepts
  | @reference keywords target reference href htarget h =>
    have hmem : reference ∈ root.references := Json.mem_references.2 (hknown (mem_allReferences_of_get? href))
    have hresolve := htarget.resolve? hcomponents
    exact h.exists_tag (Json.ordered_of_resolve? hroot hresolve) hinst
      ((Evaluation.passes_reference href).1 haccepts hmem _ (targetOf_of_resolve? htarget.plain hresolve))

end

/-! ## The table of cases -/

section

variable {document : Json} {tag : String} {texts : Json → List String} {branches : List Json}
  {cases : Fields}

/-- The table with an alternative under those of its tags that have none yet. -/
def addTags (branch : Json) (tags : List String) (cases : Fields) : Fields :=
  tags.foldl (fun (all : Fields) value => all.insertIfAbsent value branch) cases

theorem get?_addTags {branch : Json} (tags : List String) (text : String) :
    (addTags branch tags cases).get? text =
      (cases.get? text).or (if text ∈ tags then some branch else none) := by
  induction tags generalizing cases with
  | nil => simp [addTags]
  | cons first rest ih =>
    rw [addTags, List.foldl_cons, ← addTags, ih, Fields.get?_insertIfAbsent]
    by_cases hfirst : first = text
    · subst hfirst
      cases cases.get? first <;> simp
    · simp [hfirst, Ne.symm hfirst]

theorem addBranches_cons {mapped : List String} {branch : Json} {rest : List Json} :
    addBranches document tag mapped cases (branch :: rest) =
      if branch.reference?.any mapped.contains = true then addBranches document tag mapped cases rest
      else if (branchTags document tag branch).isEmpty = true then none
      else addBranches document tag mapped (addTags branch (branchTags document tag branch) cases) rest := by
  rw [addBranches]
  cases branch.reference? <;> rfl

/-- There is a table if each alternative is named by the mapping or has tags. -/
theorem exists_addBranches_iff {mapped : List String} :
    (∃ table, addBranches document tag mapped cases branches = some table) ↔ ∀ branch ∈ branches,
      branch.reference?.any mapped.contains = true ∨ branchTags document tag branch ≠ [] := by
  induction branches generalizing cases with
  | nil => simp [addBranches]
  | cons branch rest ih =>
    rw [addBranches_cons, List.forall_mem_cons]
    by_cases hmapped : branch.reference?.any mapped.contains = true
    · rw [if_pos hmapped, ih]
      simp [hmapped]
    · rw [if_neg hmapped]
      by_cases htags : branchTags document tag branch = []
      · simp [hmapped, htags]
      · rw [if_neg (by simpa using htags), ih]
        simp [hmapped, htags]

/-- An alternative that the mapping does not name and that has a text among its tags. -/
def claims (document : Json) (tag : String) (mapped : List String) (text : String) (branch : Json) : Bool :=
  !branch.reference?.any mapped.contains && decide (text ∈ branchTags document tag branch)

/-- A text keeps the case that it has, else it stands for the first alternative that claims it. -/
theorem get?_addBranches {mapped : List String} {table : Fields} {text : String}
    (h : addBranches document tag mapped cases branches = some table) :
    table.get? text = (cases.get? text).or (branches.find? (claims document tag mapped text)) := by
  induction branches generalizing cases with
  | nil =>
    cases h
    rw [List.find?_nil, Option.or_none]
  | cons branch rest ih =>
    rw [addBranches_cons] at h
    rw [List.find?_cons]
    by_cases hmapped : branch.reference?.any mapped.contains = true
    · have hclaims : claims document tag mapped text branch = false := by
        rw [claims, hmapped, Bool.not_true, Bool.false_and]
      rw [if_pos hmapped] at h
      rw [ih h, hclaims]
    · have hclaims : claims document tag mapped text branch =
          decide (text ∈ branchTags document tag branch) := by
        rw [claims, Bool.eq_false_iff.2 hmapped, Bool.not_false, Bool.true_and]
      rw [if_neg hmapped] at h
      split at h
      · cases h
      · rw [ih h, get?_addTags, hclaims, Option.or_assoc]
        by_cases htext : text ∈ branchTags document tag branch <;> simp [htext]

/-- Without a mapping each text stands for the first alternative that it is a tag of. -/
theorem exists_addBranches (htags : ∀ branch ∈ branches, branchTags document tag branch = texts branch)
    (hinhabited : ∀ branch ∈ branches, texts branch ≠ []) :
    ∃ table, addBranches document tag [] cases branches = some table ∧
      ∀ text, table.get? text = (cases.get? text).or (branches.find? fun branch => text ∈ texts branch) := by
  obtain ⟨table, htable⟩ : ∃ table, addBranches document tag [] cases branches = some table :=
    exists_addBranches_iff.2 fun branch hbranch => .inr (htags branch hbranch ▸ hinhabited branch hbranch)
  refine ⟨table, htable, fun text => ?_⟩
  have hclaims : ∀ branch ∈ branches, claims document tag [] text branch = decide (text ∈ texts branch) := by
    intro branch hbranch
    rw [claims, htags branch hbranch]
    cases branch.reference? <;> rfl
  rw [get?_addBranches htable, List.find?_congr hclaims]

theorem find?_tag_eq_some_iff (h : branches.Pairwise fun a b => ∀ text ∈ texts a, text ∉ texts b)
    {text : String} {branch : Json} :
    (branches.find? fun branch => text ∈ texts branch) = some branch ↔
      branch ∈ branches ∧ text ∈ texts branch := by
  induction branches with
  | nil => simp
  | cons first rest ih =>
    obtain ⟨hfirst, hrest⟩ := List.pairwise_cons.1 h
    rw [List.find?_cons]
    by_cases htext : text ∈ texts first
    · simp only [htext, decide_true, Option.some.injEq, List.mem_cons]
      constructor
      · rintro rfl
        exact ⟨.inl rfl, htext⟩
      · rintro ⟨rfl | hmem, hother⟩
        · rfl
        · exact absurd hother (hfirst branch hmem text htext)
    · simp only [htext, decide_false, ih hrest, List.mem_cons]
      refine and_congr_left fun hother => ⟨.inr, ?_⟩
      rintro (rfl | hmem)
      · exact absurd hother htext
      · exact hmem

end

/-! ## Order -/

section

variable {document : Json} {tag : String} {branches : List Json} {cases table : Fields}

theorem ordered_addTags {branch : Json} (hbranch : branch.ordered = true) (tags : List String)
    (hcases : (Json.object cases).ordered = true) :
    (Json.object (addTags branch tags cases)).ordered = true := by
  induction tags generalizing cases with
  | nil => exact hcases
  | cons first rest ih => exact ih (ordered_insertIfAbsent hcases hbranch)

theorem ordered_addBranches {mapped : List String} (hbranches : ∀ branch ∈ branches, branch.ordered = true)
    (hcases : (Json.object cases).ordered = true)
    (h : addBranches document tag mapped cases branches = some table) :
    (Json.object table).ordered = true := by
  induction branches generalizing cases with
  | nil =>
    cases h
    exact hcases
  | cons branch rest ih =>
    rw [List.forall_mem_cons] at hbranches
    rw [addBranches_cons] at h
    split at h
    · exact ih hbranches.2 hcases h
    · split at h
      · cases h
      · exact ih hbranches.2 (ordered_addTags hbranches.1 _ hcases) h

theorem ordered_ofList {entries : List (String × Json)}
    (h : ∀ entry ∈ entries, entry.2.ordered = true) :
    (Json.object (Fields.ofList entries)).ordered = true := by
  have hfold : ∀ start : Fields, (Json.object start).ordered = true → (Json.object (entries.foldl
      (fun (fields : Fields) entry => fields.insert entry.1 entry.2) start)).ordered = true := by
    induction entries with
    | nil => exact fun _ => id
    | cons entry rest ih =>
      rw [List.forall_mem_cons] at h
      exact fun start hstart => ih h.2 _ (ordered_insert hstart h.1)
  exact hfold [] rfl

theorem ordered_schemaWithCases {fields : Fields} (h : (Json.object fields).ordered = true) :
    (Json.object (schemaWithCases document fields)).ordered = true := by
  unfold schemaWithCases
  split
  · rename_i tag branches _ hbranches
    split
    · rename_i cases hcases
      obtain ⟨mapped, -, hadded⟩ := Option.bind_eq_some_iff.1 hcases
      refine ordered_withCases h (ordered_addBranches ?_ (ordered_ofList ?_) hadded)
      · exact Json.ordered_array.1 (Json.ordered_of_get? h hbranches)
      · exact List.forall_mem_map.2 fun _ _ => rfl
    · exact h
  · exact h

theorem ordered_nodeWithCases {value : Json} (h : value.ordered = true) :
    (nodeWithCases document value).ordered = true := by
  induction value using Json.partsInduction with
  | object fields ih =>
    rw [(isWalk_nodeWithCases document).object]
    exact ordered_schemaWithCases (ordered_walkFields h ih)
  | array items ih =>
    rw [nodeWithCases, itemsWithCases_eq_map, Json.ordered_array, List.forall_mem_map]
    exact fun item hitem => ih item hitem (Json.ordered_array.1 h item hitem)
  | plain value hobject hitems =>
    cases value with
    | object fields => exact absurd rfl (hobject fields)
    | array items => exact absurd rfl (hitems items)
    | _ => exact h

end

end ApiContract
