import ApiContract.Proofs.Schema.Guarding
import ApiContract.Proofs.Schema.Plain

/-! # Schemas with cases

A discriminated schema after its alternatives have become cases: what passes it, and what the guard
reports of it.

* `passes_caseGuard`: a case asks something of the objects only that it is for.
* `passes_withCases`: a schema with cases is its other keywords and the case that is selected.
* `not_faulty_withCases`: the guard asks besides that some case is selected. -/

set_option autoImplicit false

namespace ApiContract

/-! ## The guard of one case -/

namespace Evaluation

variable {root : Json} {known pool : List String} {inst : Json} {tag value : String} {branch : Json}

theorem holds_const : Assertion.Holds "const" (.string value) inst ↔ inst = .string value := by
  show Assertion.isConstant (.string value) inst = true ↔ _
  cases inst with
  | string text =>
    show (value == text) = true ↔ _
    rw [beq_iff_eq, Json.string.injEq]
    exact eq_comm
  | _ => simp [Assertion.isConstant, Json.sameValue]

theorem holds_objectType : Assertion.Holds "type" (.string "object") inst ↔ inst.isObject = true := by
  show (∃ type : SchemaType, type.name ∈ Assertion.typeNames (.string "object") ∧
    type.holds inst = true) ↔ _
  constructor
  · rintro ⟨type, hname, hholds⟩
    cases type <;> simp [SchemaType.name, Assertion.typeNames] at hname
    cases inst <;> simp [SchemaType.holds, Json.isObject] at hholds ⊢
  · intro h
    refine ⟨.object, by simp [SchemaType.name, Assertion.typeNames], ?_⟩
    cases inst <;> simp [SchemaType.holds, Json.isObject] at h ⊢

theorem const_ordered : (Json.object [("const", .string value)]).ordered = true := by
  rw [Json.ordered_object, List.forall_mem_singleton]
  exact ⟨Fields.ordered_of_keys rfl (by decide : ["const"].Pairwise (· < ·)), rfl⟩

theorem fulfils_const {here : Json → Prop} {inside : Json → Json → Prop} :
    Fulfils here inside [("const", .string value)] inst ↔ inst = .string value := by
  have hplain : IsPlain [("const", .string value)] :=
    isPlain_of_keys (by simp [furtherKeywords])
  rw [fulfils_of_plain hplain, Fields.forall_get?_iff (Json.ordered_object.1 const_ordered).1,
    List.forall_mem_singleton, holds_const]
  refine and_iff_left ⟨by simp [Fields.get?_cons], ?_, ?_⟩
  · intro fields _ name part _ sub hsub
    simp [propertySchemaOf?, declaredProperty?, Fields.get?_cons] at hsub
  · intro items _ i item _ sub hsub
    simp [itemSchema?, Fields.get?_cons] at hsub

theorem passes_const (hinst : inst.ordered = true) :
    Passes root known pool (.object [("const", .string value)]) inst ↔ inst = .string value := by
  rw [passes_iff_fulfils const_ordered hinst (by simp [Fields.get?_cons]), fulfils_const]

/-- What a case asks the tag of an object for. -/
def tagTest (tag value : String) : Fields :=
  [("properties", .object [(tag, .object [("const", .string value)])]),
    ("required", .array [.string tag]), ("type", .string "object")]

theorem tagTest_ordered : (Json.object (tagTest tag value)).ordered = true := by
  have hkeys : Fields.Ordered (tagTest tag value) :=
    Fields.ordered_of_keys rfl (by decide : ["properties", "required", "type"].Pairwise (· < ·))
  have htag : (Json.object [(tag, .object [("const", .string value)])]).ordered = true := by
    rw [Json.ordered_object, List.forall_mem_singleton]
    exact ⟨List.pairwise_singleton .., rfl⟩
  rw [Json.ordered_object, tagTest, List.forall_mem_cons, List.forall_mem_cons,
    List.forall_mem_singleton]
  exact ⟨hkeys, htag, rfl, rfl⟩

theorem tagTest_plain : IsPlain (tagTest tag value) :=
  isPlain_of_keys (by simp [tagTest, furtherKeywords])

theorem holds_required_one {fields : Fields} :
    Assertion.Holds "required" (.array [.string tag]) (.object fields) ↔ fields.hasKey tag = true := by
  show (∀ name, Json.string name ∈ [Json.string tag] → fields.hasKey name = true) ↔ _
  simp

theorem propertySchemaOf?_tagTest (name : String) : propertySchemaOf? (tagTest tag value) name =
    if tag = name then some (.object [("const", .string value)]) else none := by
  simp [propertySchemaOf?, declaredProperty?, tagTest, Fields.get?_cons]

/-- Whether the schema of the tag is passed by its value only. -/
def IsConst (inside : Json → Json → Prop) (value : String) : Prop :=
  ∀ held : Json, held.ordered = true →
    (inside (.object [("const", .string value)]) held ↔ held = .string value)

section

variable {here : Json → Prop} {inside : Json → Json → Prop}

/-- The test asks nothing of the members but of the tag. -/
theorem members_tagTest (hconst : IsConst inside value) {fields : Fields}
    (hinst : (Json.object fields).ordered = true) :
    (∀ name part, (name, part) ∈ fields → ∀ sub, propertySchemaOf? (tagTest tag value) name = some sub →
        inside sub part) ↔
      ∀ held, fields.get? tag = some held → held = .string value := by
  obtain ⟨hfields, hparts⟩ := Json.ordered_object.1 hinst
  constructor
  · intro h held hheld
    have hmem := Fields.mem_of_get? hheld
    exact (hconst held (hparts _ hmem)).1
      (h tag held hmem _ ((propertySchemaOf?_tagTest tag).trans (if_pos rfl)))
  · intro h name part hmem sub hsub
    rw [propertySchemaOf?_tagTest] at hsub
    by_cases hname : tag = name
    · subst hname
      rw [if_pos rfl, Option.some.injEq] at hsub
      rw [← hsub, hconst part (hparts _ hmem)]
      exact h part (Fields.get?_of_mem hfields hmem)
    · rw [if_neg hname] at hsub
      cases hsub

/-- The test asks what its name says. -/
theorem fulfils_tagTest (hconst : IsConst inside value) (hinst : inst.ordered = true) :
    Fulfils here inside (tagTest tag value) inst ↔ inst.getString? tag = some value := by
  have hproperties : ∀ schemas, Assertion.Holds "properties" schemas inst := fun _ =>
    Assertion.holds_of_not_mem (by simp [Assertion.keywords])
  have hall : ∀ given, Fields.get? "allOf" (tagTest tag value) ≠ some given := by
    simp [tagTest, Fields.get?_cons]
  have hitems : ∀ items, ItemsPass inside (tagTest tag value) items := by
    intro items i item _ sub hsub
    simp [itemSchema?, tagTest, Fields.get?_cons] at hsub
  rw [fulfils_of_plain tagTest_plain,
    Fields.forall_get?_iff (Json.ordered_object.1 tagTest_ordered).1, tagTest,
    List.forall_mem_cons, List.forall_mem_cons, List.forall_mem_singleton, holds_objectType,
    ← tagTest]
  constructor
  · rintro ⟨⟨-, hrequired, hobject⟩, -, hmembers, -⟩
    cases inst with
    | object fields =>
      obtain ⟨held, hheld⟩ := Fields.hasKey_iff.1 (holds_required_one.1 hrequired)
      have hvalue := (members_tagTest hconst hinst).1 (hmembers fields rfl) held hheld
      rw [Json.getString?, Json.get?, hheld, hvalue]
      rfl
    | _ => cases hobject
  · intro htag
    obtain ⟨held, hheld, hstring⟩ := Option.bind_eq_some_iff.1 htag
    have hvalue : held = .string value := by
      cases held with
      | string text => cases hstring; rfl
      | _ => cases hstring
    cases inst with
    | object fields =>
      refine ⟨⟨hproperties _, ?_, rfl⟩, fun given hgiven => absurd hgiven (hall given), ?_,
        fun items _ => hitems items⟩
      · exact holds_required_one.2 (Fields.hasKey_iff.2 ⟨held, hheld⟩)
      · intro given hgiven
        cases hgiven
        refine (members_tagTest hconst hinst).2 fun other hother => ?_
        rw [← Option.some.inj (hheld.symm.trans hother), hvalue]
    | _ => cases hheld

end

theorem passes_tagTest (hinst : inst.ordered = true) :
    Passes root known pool (.object (tagTest tag value)) inst ↔
      inst.getString? tag = some value := by
  rw [passes_iff_fulfils tagTest_ordered hinst (by simp [tagTest, Fields.get?_cons])]
  exact fulfils_tagTest (fun _ => passes_const) hinst

theorem caseGuard_eq : caseGuard tag value branch =
    .object [("if", .object (tagTest tag value)), ("then", branch)] := rfl

theorem caseGuard_ordered (tag value : String) (h : branch.ordered = true) :
    (caseGuard tag value branch).ordered = true := by
  rw [caseGuard_eq, Json.ordered_object]
  refine ⟨Fields.ordered_of_keys rfl (by decide : ["if", "then"].Pairwise (· < ·)), ?_⟩
  rw [List.forall_mem_cons, List.forall_mem_singleton]
  exact ⟨tagTest_ordered, h⟩

/-- A case asks something only of the objects whose tag has its value. -/
theorem passes_caseGuard (hinst : inst.ordered = true) (hbranch : branch.ordered = true) :
    Passes root known pool (caseGuard tag value branch) inst ↔
      (inst.getString? tag = some value → Passes root known pool branch inst) := by
  have hordered := caseGuard_ordered tag value hbranch
  have htest : Passes root known pool (.object (tagTest tag value)) inst ↔
      inst.getString? tag = some value := passes_tagTest hinst
  rw [caseGuard_eq] at hordered ⊢
  rw [passes_iff_fulfils hordered hinst (by simp [Fields.get?_cons]),
    fulfils_of_inPlace (by simp [inPlaceKeywords]), ← htest]
  simp [Fields.get?_cons]

end Evaluation

/-! ## The keywords of a schema with cases -/

section

variable {tag : String} {cases base : Fields}

theorem withCases_eq : withCases tag cases base =
    ((base.erase "oneOf").insert "allOf" (.array (conjuncts base ++
      cases.map fun entry => caseGuard tag entry.1 entry.2))).insert casesKeyword
        (.object cases) := by
  have hlist : (base.erase "oneOf").get? "allOf" = base.get? "allOf" := by
    rw [Fields.get?_erase, if_neg (by decide)]
  unfold withCases conjuncts
  simp only [hlist]
  cases base.get? "allOf" with
  | none => rfl
  | some value => cases value <;> rfl

theorem get?_withCases (key : String) : Fields.get? key (withCases tag cases base) =
    if casesKeyword = key then some (.object cases)
    else if "allOf" = key then
      some (.array (conjuncts base ++ cases.map fun entry => caseGuard tag entry.1 entry.2))
    else if "oneOf" = key then none else base.get? key := by
  rw [withCases_eq, Fields.get?_insert, Fields.get?_insert, Fields.get?_erase]

theorem ordered_conjuncts (h : (Json.object base).ordered = true) :
    ∀ sub ∈ conjuncts base, sub.ordered = true := by
  intro sub hsub
  obtain ⟨value, hvalue, hmem⟩ := mem_conjuncts.1 hsub
  have hlist := Json.ordered_of_get? h hvalue
  cases value with
  | array items => exact Json.ordered_array.1 hlist sub hmem
  | _ => cases hmem

theorem ordered_withCases (hbase : (Json.object base).ordered = true)
    (hcases : (Json.object cases).ordered = true) :
    (Json.object (withCases tag cases base)).ordered = true := by
  have hguards : ∀ sub ∈ cases.map (fun entry => caseGuard tag entry.1 entry.2),
      sub.ordered = true := by
    rw [List.forall_mem_map]
    exact fun entry hentry => Evaluation.caseGuard_ordered _ _ ((Json.ordered_object.1 hcases).2 entry hentry)
  rw [withCases_eq]
  refine ordered_insert (ordered_insert (ordered_erase hbase "oneOf") ?_) hcases
  rw [Json.ordered_array, List.forall_mem_append]
  exact ⟨ordered_conjuncts hbase, hguards⟩

end

/-! ## What passes a schema with cases -/

section

variable {root inst : Json} {known pool : List String} {tag : String} {cases base : Fields}

theorem conjuncts_withCases : conjuncts (withCases tag cases base) =
    conjuncts base ++ cases.map fun entry => caseGuard tag entry.1 entry.2 := by
  rw [conjuncts, get?_withCases, if_neg (by decide), if_pos rfl]
  rfl

theorem conjuncts_erase : conjuncts (base.erase "oneOf") = conjuncts base := by
  rw [conjuncts, Fields.get?_erase, if_neg (by decide), conjuncts]

theorem withCases_agrees (key : String) (hall : key ≠ "allOf") (hcases : key ≠ casesKeyword) :
    Fields.get? key (withCases tag cases base) = Fields.get? key (base.erase "oneOf") := by
  rw [get?_withCases, if_neg (Ne.symm hcases), if_neg (Ne.symm hall), Fields.get?_erase]

/-- A schema with cases is its other keywords, and the case that the tag selects if it selects one. -/
theorem Evaluation.passes_withCases (hbase : (Json.object base).ordered = true)
    (hcases : (Json.object cases).ordered = true) (hinst : inst.ordered = true)
    (href : ∀ reference, base.get? "$ref" ≠ some (.string reference)) :
    Passes root known pool (.object (withCases tag cases base)) inst ↔
      Passes root known pool (.object (base.erase "oneOf")) inst ∧
        ∀ value branch, inst.getString? tag = some value → cases.get? value = some branch →
          Passes root known pool branch inst := by
  have hrefErase : ∀ reference, (base.erase "oneOf").get? "$ref" ≠ some (.string reference) := by
    intro reference
    rw [Fields.get?_erase, if_neg (by decide)]
    exact href reference
  have hrefCases : ∀ reference,
      (withCases tag cases base).get? "$ref" ≠ some (.string reference) := by
    intro reference
    rw [withCases_agrees _ (by decide) (by decide)]
    exact hrefErase reference
  have hguards : (∀ sub ∈ cases.map (fun entry => caseGuard tag entry.1 entry.2),
      Passes root known pool sub inst) ↔ ∀ value branch, inst.getString? tag = some value →
        cases.get? value = some branch → Passes root known pool branch inst := by
    have horder := Json.ordered_object.1 hcases
    rw [List.forall_mem_map]
    constructor
    · intro h value branch htag hbranch
      have hmem := Fields.mem_of_get? hbranch
      exact (passes_caseGuard hinst (horder.2 _ hmem)).1 (h _ hmem) htag
    · rintro h ⟨value, branch⟩ hmem
      refine (passes_caseGuard hinst (horder.2 _ hmem)).2 fun htag => ?_
      exact h value branch htag (Fields.get?_of_mem horder.1 hmem)
  rw [passes_iff_fulfils (ordered_withCases hbase hcases) hinst hrefCases,
    passes_iff_fulfils (ordered_erase hbase "oneOf") hinst hrefErase, ← hguards]
  constructor
  · intro h
    have hall : ∀ sub ∈ conjuncts base ++ cases.map (fun entry => caseGuard tag entry.1 entry.2),
        Passes root known pool sub inst := by
      rw [← conjuncts_withCases]
      intro sub hsub
      obtain ⟨value, hvalue, hmem⟩ := mem_conjuncts.1 hsub
      exact h.all value hvalue sub hmem
    rw [List.forall_mem_append] at hall
    refine ⟨Fulfils.of_agree withCases_agrees ?_ h, hall.2⟩
    rw [conjuncts_erase]
    exact hall.1
  · rintro ⟨h, hcase⟩
    refine Fulfils.of_agree (fun key hkey hne => (withCases_agrees key hkey hne).symm) ?_ h
    rw [conjuncts_withCases, List.forall_mem_append, ← conjuncts_erase]
    refine ⟨fun sub hsub => ?_, hcase⟩
    obtain ⟨value, hvalue, hmem⟩ := mem_conjuncts.1 hsub
    exact h.all value hvalue sub hmem

/-! ## What the guard asks of a schema with cases -/

theorem casesAndTag?_withCases (htag : discriminatorTag? base = some tag) :
    ∃ table : Part (.object (withCases tag cases base)), table.value = .object cases ∧
      casesAndTag? (.object (withCases tag cases base)) = some (table, tag) := by
  have htable : (Json.object (withCases tag cases base)).get? casesKeyword = some (.object cases) := by
    rw [Json.get?, get?_withCases, if_pos rfl]
  have hpart : (Json.object (withCases tag cases base)).part? casesKeyword =
      some ⟨.object cases, Json.sizeOf_get?_lt htable⟩ := Json.part?_eq_some.2 htable
  have hname : ((Json.object (withCases tag cases base)).get? "discriminator").bind
      (·.getString? "propertyName") = some tag := by
    rw [Json.get?, get?_withCases, if_neg (by decide), if_neg (by decide), if_neg (by decide)]
    exact htag
  refine ⟨⟨.object cases, Json.sizeOf_get?_lt htable⟩, rfl, ?_⟩
  have hobject : (Json.object cases).isObject = true := rfl
  rw [casesAndTag?, hpart]
  simp only [hobject, if_true, hname, Option.map_some]

theorem selected_withCases {here : Json → Prop} (htag : discriminatorTag? base = some tag) :
    Selected here (selection (.object (withCases tag cases base)) inst) ↔
      ∃ value branch, inst.getString? tag = some value ∧ cases.get? value = some branch ∧
        here branch := by
  obtain ⟨table, htable, hboth⟩ : ∃ table : Part (.object (withCases tag cases base)),
      table.value = .object cases ∧
        casesAndTag? (.object (withCases tag cases base)) = some (table, tag) :=
    casesAndTag?_withCases htag
  have hget : ∀ value, table.value.get? value = cases.get? value := by
    intro value
    rw [htable]
    rfl
  unfold selection
  simp only [hboth]
  cases inst.getString? tag with
  | none => simp [Selected]
  | some value =>
    cases hbranch : table.value.part? value with
    | none =>
      have hnone : cases.get? value = none := (hget value).symm.trans (Json.part?_eq_none.1 hbranch)
      simp only [hbranch]
      simp [Selected, hnone]
    | some branch =>
      have hsome : cases.get? value = some branch.value :=
        (hget value).symm.trans (Json.part?_eq_some.1 hbranch)
      simp only [hbranch]
      simp [Selected, hsome]

theorem guardedConjuncts_object {keywords : Fields} : guardedConjuncts (.object keywords) =
    (conjuncts keywords).filter fun sub => (sub.get? "if").isNone := rfl

theorem guardedConjuncts_withCases : guardedConjuncts (.object (withCases tag cases base)) =
    guardedConjuncts (.object (base.erase "oneOf")) := by
  have hguards : (cases.map fun entry => caseGuard tag entry.1 entry.2).filter
      (fun sub => (sub.get? "if").isNone) = [] := by
    rw [List.filter_eq_nil_iff, List.forall_mem_map]
    intro entry _
    rw [Evaluation.caseGuard_eq]
    simp [Json.get?, Fields.get?_cons]
  rw [guardedConjuncts_object, guardedConjuncts_object, conjuncts_withCases, List.filter_append,
    hguards, List.append_nil, conjuncts_erase]

/-- The guard wants an instance of a schema with cases to select one, and goes on from there and from
the other keywords. -/
theorem not_faulty_withCases (htag : discriminatorTag? base = some tag)
    (hkey : base.get? casesKeyword = none)
    (href : ∀ reference, base.get? "$ref" ≠ some (.string reference)) :
    ¬ Faulty root known pool (.object (withCases tag cases base)) inst ↔
      (∃ value branch, inst.getString? tag = some value ∧ cases.get? value = some branch ∧
        ¬ Faulty root known pool branch inst) ∧
      ¬ Faulty root known pool (.object (base.erase "oneOf")) inst := by
  have hrefErase : (Json.object (base.erase "oneOf")).reference? = none := by
    refine reference?_object.2 fun reference => ?_
    rw [Fields.get?_erase, if_neg (by decide)]
    exact href reference
  have hrefCases : (Json.object (withCases tag cases base)).reference? = none := by
    refine reference?_object.2 fun reference => ?_
    rw [withCases_agrees _ (by decide) (by decide)]
    exact reference?_object.1 hrefErase reference
  have hnone : selection (.object (base.erase "oneOf")) inst = .nothing := by
    refine selection_of_no_cases ?_
    rw [Fields.get?_erase, if_neg (by decide), hkey]
  have hproperty : ∀ name, propertySchema? (.object (withCases tag cases base)) name =
      propertySchema? (.object (base.erase "oneOf")) name := by
    intro name
    rw [propertySchema?, propertySchema?]
    simp only [Json.get?, withCases_agrees "properties" (by decide) (by decide),
      withCases_agrees "additionalProperties" (by decide) (by decide)]
  have hitem : ∀ place, guardedItem? (.object (withCases tag cases base)) place =
      guardedItem? (.object (base.erase "oneOf")) place := by
    intro place
    rw [guardedItem?, guardedItem?]
    simp only [Json.get?, withCases_agrees "items" (by decide) (by decide)]
  rw [not_faulty_keywords hrefCases, not_faulty_keywords hrefErase, hnone, selected_withCases htag,
    passes_unconditional, passes_unconditional, passes_guardedParts, passes_guardedParts,
    guardedConjuncts_withCases]
  simp only [hproperty, hitem, Selected, true_and]

end

end ApiContract
