import ApiContract.Proofs.Preparation.Declared
import ApiContract.Proofs.Preparation.Named

/-! # What closing rejects

A named schema that leaves open which further properties there are may be closed before it is compiled.
Closed it accepts what it accepts open, unless there is a property that has no schema in its keywords once
it is prepared.

* `fulfils_closed_iff`: what closed keywords ask.
* `nodeWithCases_closeSchema`: closing a schema before or after cases are introduced.
* `accepts_closed_iff`: what a closed schema accepts.
* `accepts_closed`: closing rejects no property that the schema declares. -/

set_option autoImplicit false

namespace ApiContract

/-! ## Closed keywords -/

/-- Keywords that allow no further properties. -/
def closedFields (keywords : Fields) : Fields := keywords.insert "additionalProperties" (.bool false)

theorem closeSchema_object (keywords : Fields) : closeSchema (.object keywords) =
    .object (if isClosable keywords then closedFields keywords else keywords) := by
  rw [closeSchema]
  split <;> rfl

section

variable {keywords : Fields} {inst : Json}

theorem absent_of_isClosable (h : isClosable keywords = true) :
    keywords.get? "additionalProperties" = none ∧ keywords.get? "discriminator" = none := by
  rw [isClosable, Bool.not_eq_true'] at h
  simp only [Bool.or_eq_false_iff, Fields.hasKey_eq_false_iff] at h
  exact ⟨h.1.1.2, h.1.2⟩

theorem get?_closedFields {key : String} (h : key ≠ "additionalProperties") :
    (closedFields keywords).get? key = keywords.get? key := by
  rw [closedFields, Fields.get?_insert, if_neg h.symm]

theorem propertySchemas_closedFields (name : String) :
    propertySchemas (closedFields keywords) name = propertySchemas keywords name := by
  unfold propertySchemas declaredProperty? matchingPatterns
  rw [get?_closedFields (by decide), get?_closedFields (by decide)]

/-- Every property of an object has a schema in the keywords. -/
def Covered (keywords : Fields) (inst : Json) : Prop :=
  ∀ fields, inst = .object fields → ∀ field ∈ fields, propertySchemas keywords field.1 ≠ []

/-- Closed keywords ask what they ask open, and that every property has a schema. -/
theorem fulfils_closed_iff {here : Json → Prop} {inside : Json → Json → Prop}
    (hfalse : ∀ value, ¬ inside (.bool false) value)
    (hopen : keywords.get? "additionalProperties" = none) :
    Fulfils here inside (closedFields keywords) inst ↔
      Fulfils here inside keywords inst ∧ Covered keywords inst := by
  have hsame : ∀ key, key ∉ ["additionalProperties", "allOf", casesKeyword] →
      (closedFields keywords).get? key = keywords.get? key := by
    intro key hkey
    refine get?_closedFields ?_
    rintro rfl
    exact hkey (by decide)
  have hconjuncts : conjuncts (closedFields keywords) = conjuncts keywords := by
    rw [conjuncts, get?_closedFields (by decide), conjuncts]
  have hclosed : (closedFields keywords).get? "additionalProperties" = some (.bool false) := by
    rw [closedFields, Fields.get?_insert, if_pos rfl]
  have hall : ∀ {given : Fields}, Fulfils here inside given inst → ∀ sub ∈ conjuncts given, here sub := by
    intro given h sub hsub
    obtain ⟨value, hvalue, hlisted⟩ := mem_conjuncts.1 hsub
    exact h.all value hvalue sub hlisted
  constructor
  · intro h
    refine ⟨h.of_agree_apart hsame (hconjuncts ▸ hall h) fun fields hinst name value hmem => ?_,
      fun fields hinst field hfield hnone => ?_⟩
    · obtain ⟨hown, -⟩ := h.members fields hinst name value hmem
      rw [propertySchemas_closedFields] at hown
      refine ⟨hown, fun _ sub hsub => ?_⟩
      rw [hopen] at hsub
      cases hsub
    · obtain ⟨-, hfurther⟩ := h.members fields hinst field.1 field.2 hfield
      rw [propertySchemas_closedFields] at hfurther
      exact hfalse field.2 (hfurther hnone (.bool false) hclosed rfl)
  · rintro ⟨h, hcovered⟩
    refine h.of_agree_apart (fun key hkey => (hsame key hkey).symm) (hconjuncts ▸ hall h)
      fun fields hinst name value hmem => ?_
    obtain ⟨hown, -⟩ := h.members fields hinst name value hmem
    rw [propertySchemas_closedFields]
    exact ⟨hown, fun hnone => absurd hnone (hcovered fields hinst (name, value) hmem)⟩

/-! ## The guard -/

/-- The guard goes on alike from schemas without cases that lead to the same schemas. -/
theorem Faulty.of_same_parts {root a b : Json} {known pool : List String}
    (href : a.reference? = none) (hother : b.reference? = none) (hselection : selection a inst = .nothing)
    (hconjuncts : guardedConjuncts a = guardedConjuncts b)
    (hproperty : ∀ name, propertySchema? a name = propertySchema? b name)
    (hitem : ∀ place, guardedItem? a place = guardedItem? b place)
    (h : Faulty root known pool a inst) : Faulty root known pool b inst := by
  cases h with
  | reference h =>
    rw [href] at h
    cases h
  | unselected _ h =>
    rw [hselection] at h
    cases h
  | case _ h =>
    rw [hselection] at h
    cases h
  | conjunct _ hsub h => exact .conjunct hother (hconjuncts ▸ hsub) h
  | property _ hmem hsub h => exact .property hother hmem (hproperty _ ▸ hsub) h
  | item _ hheld hsub h => exact .item hother hheld (hitem _ ▸ hsub) h

theorem reference?_closedFields :
    (Json.object (closedFields keywords)).reference? = (Json.object keywords).reference? := by
  rw [Json.reference?, Json.getString?, Json.get?, get?_closedFields (by decide)]
  rfl

theorem selection_closedFields (h : keywords.get? "discriminator" = none) :
    selection (.object keywords) inst = .nothing ∧
      selection (.object (closedFields keywords)) inst = .nothing := by
  refine ⟨selection_of_untagged ?_, selection_of_untagged ?_⟩
  · rw [Json.get?, h]
    rfl
  · rw [Json.get?, get?_closedFields (by decide), h]
    rfl

theorem propertySchema?_closedFields (hopen : keywords.get? "additionalProperties" = none)
    (name : String) :
    propertySchema? (.object (closedFields keywords)) name = propertySchema? (.object keywords) name := by
  have hproperties : (Json.object (closedFields keywords)).get? "properties" =
      (Json.object keywords).get? "properties" := get?_closedFields (by decide)
  have hclosed : (Json.object (closedFields keywords)).get? "additionalProperties" =
      some (.bool false) := by
    rw [Json.get?, closedFields, Fields.get?_insert, if_pos rfl]
  have hnone : (Json.object keywords).get? "additionalProperties" = none := hopen
  rw [propertySchema?, propertySchema?, hproperties, hclosed, hnone]

/-- The guard goes on from closed keywords as from open ones. -/
theorem faulty_closed_iff {root : Json} {known pool : List String} (h : isClosable keywords = true)
    (hinline : Inline (.object keywords)) :
    Faulty root known pool (.object (closedFields keywords)) inst ↔
      Faulty root known pool (.object keywords) inst := by
  obtain ⟨hopen, huntagged⟩ := absent_of_isClosable h
  obtain ⟨hown, hclosed⟩ := @selection_closedFields keywords inst huntagged
  have href := hinline.reference?
  have hother := reference?_closedFields.trans href
  have hconjuncts : guardedConjuncts (.object (closedFields keywords)) =
      guardedConjuncts (.object keywords) := by
    rw [guardedConjuncts, Json.get?, get?_closedFields (by decide), guardedConjuncts, Json.get?]
  have hitem : ∀ place, guardedItem? (.object (closedFields keywords)) place =
      guardedItem? (.object keywords) place := by
    intro place
    rw [guardedItem?, Json.get?, get?_closedFields (by decide), guardedItem?, Json.get?]
  exact ⟨.of_same_parts hother href hclosed hconjuncts (propertySchema?_closedFields hopen) hitem,
    .of_same_parts href hother hown hconjuncts.symm
      (fun name => (propertySchema?_closedFields hopen name).symm) fun place => (hitem place).symm⟩

theorem showsCases_closed_iff (hopen : keywords.get? "additionalProperties" = none)
    (hinline : Inline (.object keywords)) :
    ShowsCases (.object (closedFields keywords)) ↔ ShowsCases (.object keywords) := by
  have hreference := hinline.reference?
  have hmem : ∀ field, field ∈ closedFields keywords ↔
      field = ("additionalProperties", .bool false) ∨ field ∈ keywords := fun field => by
    rw [closedFields, (Fields.perm_insert _ hopen).mem_iff, List.mem_cons]
  have hcases : (closedFields keywords).get? casesKeyword = keywords.get? casesKeyword :=
    get?_closedFields (by decide)
  constructor
  · rintro ⟨part, hpart, hshows⟩
    cases hpart with
    | self => exact ⟨_, .self _, fun hnone => hshows (hcases.trans hnone)⟩
    | field _ hfield hkey hinner =>
      rcases (hmem _).1 hfield with hnew | hold
      · cases hnew
        cases hinner
        exact absurd rfl hshows
      · exact ⟨part, .field hreference hold hkey hinner, hshows⟩
  · rintro ⟨part, hpart, hshows⟩
    cases hpart with
    | self => exact ⟨_, .self _, fun hnone => hshows (hcases.symm.trans hnone)⟩
    | field _ hfield hkey hinner =>
      have hnew := (hmem _).2 (.inr hfield)
      exact ⟨part, .field (reference?_closedFields.trans hreference) hnew hkey hinner, hshows⟩

end

/-! ## What a closed schema accepts -/

section

variable {document : Json} {keywords : Fields} {inst : Json}

theorem inline_closeSchema {schema : Json} (h : Inline schema) : Inline (closeSchema schema) :=
  inline_iff_refersOnly.2 (refersOnly_closeSchema (inline_iff_refersOnly.1 h))

theorem ordered_closedFields (h : (Json.object keywords).ordered = true) :
    (Json.object (closedFields keywords)).ordered = true := ordered_insert h rfl

theorem inline_closedFields (h : Inline (.object keywords)) : Inline (.object (closedFields keywords)) :=
  inline_iff_refersOnly.2 (refersOnly_insert (inline_iff_refersOnly.1 h)
    (refersOnlyUnder_of_ne (by decide) fun _ hmem => nomatch hmem))

theorem accepts_closedFields_iff (hordered : (Json.object keywords).ordered = true)
    (hinst : inst.ordered = true) (hopen : keywords.get? "additionalProperties" = none)
    (hinline : Inline (.object keywords)) :
    Evaluation.Accepts (.object (closedFields keywords)) (.object (closedFields keywords)) inst ↔
      Evaluation.Accepts (.object keywords) (.object keywords) inst ∧ Covered keywords inst := by
  have hclosed := inline_closedFields hinline
  have hmoved : Evaluation.Accepts (.object keywords) (.object keywords) inst ↔
      Evaluation.Accepts (.object (closedFields keywords)) (.object keywords) inst :=
    Evaluation.passes_iff_of_inline hordered hinline hordered hinst
  rw [hmoved, Evaluation.accepts_keywords (ordered_closedFields hordered) hinst hclosed.not_reference,
    Evaluation.accepts_keywords hordered hinst hinline.not_reference]
  exact fulfils_closed_iff (fun _ => Evaluation.not_passes_false) hopen

end

/-! ## Closing before cases are introduced -/

section

variable {document : Json} {keywords : Fields}

theorem isClosable_congr {given : Fields}
    (h : ∀ key ∈ ["$ref", "additionalProperties", "discriminator", "oneOf", "anyOf", "properties"],
      given.hasKey key = keywords.hasKey key) : isClosable given = isClosable keywords := by
  rw [isClosable, isClosable, isUnion, isUnion, h _ (by decide), h _ (by decide), h _ (by decide),
    h _ (by decide), h _ (by decide), h _ (by decide)]

/-- Whether a schema can be closed does not depend on its cases. -/
theorem isClosable_schemaWithCases :
    isClosable (schemaWithCases document keywords) = isClosable keywords := by
  cases htag : keywords.hasKey "discriminator" with
  | true =>
    have hboth : (schemaWithCases document keywords).hasKey "discriminator" = true := by
      rw [Fields.hasKey, get?_schemaWithCases_of_ne (by decide), ← Fields.hasKey, htag]
    simp [isClosable, htag, hboth]
  | false =>
    have huntagged : discriminatorTag? keywords = none := by
      rw [discriminatorTag?, Fields.hasKey_eq_false_iff.1 htag]
      rfl
    rw [schemaWithCases_of_untagged huntagged]

/-- A schema can be closed before or after cases are introduced. -/
theorem nodeWithCases_closeSchema (schema : Json) :
    nodeWithCases document (closeSchema schema) = closeSchema (nodeWithCases document schema) := by
  cases schema with
  | object keywords =>
    have hwalked : isClosable (keywords.map fun field =>
        (field.1, walkField (nodeWithCases document) passesCases field.1 field.2)) = isClosable keywords :=
      isClosable_congr fun key _ => by
        rw [Fields.hasKey, Fields.get?_map, Option.isSome_map, Fields.hasKey]
    have hobject := (isWalk_nodeWithCases document).object
    rw [closeSchema_object, hobject, hobject, closeSchema_object, isClosable_schemaWithCases, hwalked]
    cases hclosable : isClosable keywords with
    | false => rfl
    | true =>
      have huntagged : ∀ {given : Fields}, given.get? "discriminator" = none →
          schemaWithCases document given = given := by
        intro given hgiven
        refine schemaWithCases_of_untagged ?_
        rw [discriminatorTag?, hgiven]
        rfl
      have hnone := (absent_of_isClosable (hwalked.trans hclosable)).2
      have hmap : (closedFields keywords).map (fun field =>
            (field.1, walkField (nodeWithCases document) passesCases field.1 field.2)) =
          closedFields (keywords.map fun field =>
            (field.1, walkField (nodeWithCases document) passesCases field.1 field.2)) :=
        Fields.map_insert _
      rw [if_pos rfl, if_pos rfl, hmap, huntagged hnone,
        huntagged ((get?_closedFields (by decide)).trans hnone)]
  | array items =>
    rw [nodeWithCases]
    rfl
  | _ => rfl

end

/-! ## Named schemas, open and closed -/

section

variable {document inst : Json} {schemas keywords : Fields} {schema : Json} {name reference : String}
  {opened closed : Options}

/-- The walks over the dialect and over compositions add no references. -/
theorem inline_of_walked {whole value flat : Json} {depth : Nat} {followed : List String}
    (h : Inline value) (hwalk : Walked whole depth followed value flat) : Inline flat := by
  cases hwalk with
  | kept => exact h
  | flattened _ hflat =>
    rw [inline_iff_refersOnly] at h ⊢
    refine ((inherited_refersOnly _).flattening (fun fragment reference _ hfragment href => ?_) _).1
      followed value flat h hflat
    rw [(inline_iff_refersOnly.2 hfragment).reference?] at href
    cases href

theorem inline_walkField_normalizeDialect (h : Inline schema) :
    Inline (walkField normalizeDialect isDataKeyword name schema) := by
  unfold walkField
  split
  · exact h
  · exact inline_iff_refersOnly.2 (refersOnly_normalizeDialect (inline_iff_refersOnly.1 h))

/-- The closed schema stands in the prepared document where the open one stands else. -/
theorem follow?_prepare_closed (hopened : opened.closeSchemas = false)
    (hclosed : closed.closeSchemas = true) (hnamed : NamesSchemas schemas document)
    (hschema : schemas.get? name = some schema) (hinline : Inline schema) {prepared : Json}
    (hprepared : (prepare opened document).follow? ["components", "schemas", name] = some prepared) :
    (prepare closed document).follow? ["components", "schemas", name] = some (closeSchema prepared) := by
  obtain ⟨flat, hwalk, hopen, hclose⟩ := exists_follow?_prepare hnamed hschema
  have hflat := inline_of_walked (inline_walkField_normalizeDialect hinline) hwalk
  have hsame : nodeWithCases (closeComponentSchemas (flattened document)) (closeSchema flat) =
      nodeWithCases (flattened document) (closeSchema flat) :=
    nodeWithCases_congr (fun _ => False.elim) (inline_iff_refersOnly.1 (inline_closeSchema hflat))
  rw [hopen opened hopened, Option.some.injEq] at hprepared
  rw [hclose closed hclosed, ← hprepared]
  unfold walkField
  split
  · rfl
  · rw [hsame, nodeWithCases_closeSchema]

/-- Closing a schema without references rejects the objects with a property that has no schema in it, if it
can be closed, and nothing else. -/
theorem accepts_closed_iff (label : String) (hopened : opened.closeSchemas = false)
    (hclosed : closed.closeSchemas = true) (hdocument : document.ordered = true)
    (hinst : inst.ordered = true) (hnamed : NamesSchemas schemas document)
    (hschema : schemas.get? name = some schema) (hinline : Inline schema)
    (hplain : IsPlainReference reference)
    (hsteps : pointerSteps? reference = some ["components", "schemas", name])
    (hprepared : (prepare opened document).follow? ["components", "schemas", name] =
      some (.object keywords)) (hcases : Inline (.object keywords)) :
    acceptsReference label (prepare closed document) reference inst = true ↔
      acceptsReference label (prepare opened document) reference inst = true ∧
        (isClosable keywords = true → Covered keywords inst) := by
  have hfollow := follow?_prepare_closed hopened hclosed hnamed hschema hinline hprepared
  have hresolve : ∀ {options target}, (prepare options document).follow? ["components", "schemas", name] =
      some target → (prepare options document).resolve? reference = some target := by
    intro options target htarget
    rw [Json.resolve?, hsteps, Option.bind_some, htarget]
  have hordered := Json.ordered_of_follow? (ordered_prepare opened hdocument) hprepared
  rw [closeSchema_object] at hfollow
  rw [acceptsReference_iff label hplain hsteps (hresolve hprepared) hcases
    (ordered_prepare opened hdocument) hinst]
  cases hclosable : isClosable keywords with
  | false =>
    rw [hclosable, if_neg Bool.false_ne_true] at hfollow
    rw [acceptsReference_iff label hplain hsteps (hresolve hfollow) hcases
      (ordered_prepare closed hdocument) hinst]
    exact (and_iff_left fun h => absurd h Bool.false_ne_true).symm
  | true =>
    have hopen := (absent_of_isClosable hclosable).1
    have hfaulty : Faulty (.object (closedFields keywords)) [] [] (.object (closedFields keywords)) inst ↔
        Faulty (.object keywords) [] [] (.object keywords) inst :=
      (faulty_closed_iff hclosable hcases).trans
        ⟨fun h => h.of_inline hcases, fun h => h.of_inline hcases⟩
    rw [hclosable, if_pos rfl] at hfollow
    rw [acceptsReference_iff label hplain hsteps (hresolve hfollow) (inline_closedFields hcases)
      (ordered_prepare closed hdocument) hinst, accepts_closedFields_iff hordered hinst hopen hcases,
      showsCases_closed_iff hopen hcases, hfaulty]
    simp only [forall_const]
    rw [and_right_comm]

/-- The keywords of a named schema once it is prepared gather the names that it declares. -/
theorem gathers_prepared (hopened : opened.closeSchemas = false) (hdocument : document.ordered = true)
    (hnamed : NamesSchemas schemas document) (hschema : schemas.get? name = some schema)
    (hinline : Inline schema) (hmaps : HasSchemaMaps schema)
    (hprepared : (prepare opened document).follow? ["components", "schemas", name] =
      some (.object keywords)) : Gathers schema keywords := by
  obtain ⟨flat, hwalk, hopen, -⟩ := exists_follow?_prepare hnamed hschema
  rw [hopen opened hopened, Option.some.injEq] at hprepared
  have hordered : schema.ordered = true :=
    Json.ordered_of_follow? hdocument ((hnamed.follow? name).trans hschema)
  have hkind := (isWalk_nodeWithCases (flattened document)).sameKind_walkField name flat
  rw [hprepared] at hkind
  obtain ⟨flatFields, rfl⟩ := hkind.exists_object
  -- the walks pass over a schema with the name of a data keyword, each in the same way
  have hgathers : Gathers schema flatFields := by
    have hnormal := Dialect.ordered_normalizeDialect hdocument
    unfold walkField at hwalk
    split at hwalk
    · exact gathers_of_walked hnormal hordered hinline hmaps hwalk
    · refine .of_normalized hmaps (gathers_of_walked hnormal ?_ ?_ hmaps.normalizeDialect hwalk)
      · exact Dialect.ordered_normalizeDialect hordered
      · exact inline_iff_refersOnly.2 (refersOnly_normalizeDialect (inline_iff_refersOnly.1 hinline))
  unfold walkField at hprepared
  split at hprepared
  · cases hprepared
    exact hgathers
  · exact hgathers.nodeWithCases hprepared

/-- Closing rejects no property that is declared. If an object is accepted as long as the named schema is
left open, and the schema cannot be closed, or names each property of the object itself or, where its
composition has been merged, in one of the schemas that it is made of, then the object is accepted by the
closed schema too. -/
theorem accepts_closed (label : String) {fields : Fields}
    (hopened : opened.closeSchemas = false) (hclosed : closed.closeSchemas = true)
    (hdocument : document.ordered = true) (hinst : inst.ordered = true)
    (hnamed : NamesSchemas schemas document) (hschema : schemas.get? name = some (.object fields))
    (hinline : Inline (.object fields)) (hmaps : HasSchemaMaps (.object fields))
    (hplain : IsPlainReference reference)
    (hsteps : pointerSteps? reference = some ["components", "schemas", name])
    (hprepared : (prepare opened document).follow? ["components", "schemas", name] =
      some (.object keywords)) (hcases : Inline (.object keywords))
    (hnames : isClosable keywords = true → ∀ properties, inst = .object properties →
      ∀ property ∈ properties, (declaredProperty? fields property.1).isSome = true ∨
        (keywords.hasKey "allOf" = false ∧ Declares (.object fields) property.1))
    (haccepts : acceptsReference label (prepare opened document) reference inst = true) :
    acceptsReference label (prepare closed document) reference inst = true := by
  have hgathers := gathers_prepared hopened hdocument hnamed hschema hinline hmaps hprepared
  refine (accepts_closed_iff label hopened hclosed hdocument hinst hnamed hschema hinline hplain hsteps
    hprepared hcases).2 ⟨haccepts, fun hclosable properties hproperties property hmem hnone => ?_⟩
  have hname : (declaredProperty? keywords property.1).isSome = true := by
    rcases hnames hclosable properties hproperties property hmem with hown | ⟨hmerged, hdeclares⟩
    · exact hgathers.own fields rfl property.1 hown
    · exact hgathers.all hmerged property.1 hdeclares
  obtain ⟨sub, hsub⟩ := Option.isSome_iff_exists.1 hname
  rw [propertySchemas, hsub] at hnone
  cases hnone

end

/-! ## A composition that is closed -/

theorem namesSchemas_componentsDocument {schemas : Fields}
    (h : ∀ key value, schemas.get? key = some value → value.isObject = true) :
    NamesSchemas schemas (componentsDocument schemas) :=
  .maps (.single _ _) (.single _ _) (isMap_of_objects h) rfl rfl

/-- The schema that asks for nothing. -/
def anything : Json := .object []

theorem accepts_anything {root inst : Json} (hinst : inst.ordered = true) :
    Evaluation.Accepts root anything inst :=
  (Evaluation.accepts_keywords rfl hinst fun _ hvalue => by cases hvalue).2
    ((fulfils_of_inPlace (List.forall_mem_nil _)).2 ⟨nofun, nofun, nofun, nofun, nofun⟩)

/-- Declarations of properties that may be anything, with alternatives of which one accepts the value. -/
theorem accepts_of_declarations {root inst : Json} {keywords : Fields}
    (hordered : (Json.object keywords).ordered = true) (hinst : inst.ordered = true)
    (hkeys : ∀ field ∈ keywords, field.1 ∈ ["anyOf", "properties"])
    (hproperties : ∀ name sub, declaredProperty? keywords name = some sub → sub = anything)
    (hany : ∀ value, keywords.get? "anyOf" = some value →
      ∃ sub ∈ listed value, Evaluation.Accepts root sub inst) :
    Evaluation.Accepts root (.object keywords) inst := by
  have habsent : ∀ {key}, key ∉ ["anyOf", "properties"] → ∀ value, keywords.get? key ≠ some value :=
    fun hkey value hvalue => hkey (hkeys _ (Fields.mem_of_get? hvalue))
  have hsilent : ∀ key ∈ ["anyOf", "properties"], key ∉ Assertion.keywords ∧
      key ≠ "contentMediaType" ∧ key ≠ "contentEncoding" := by decide
  refine (Evaluation.accepts_keywords hordered hinst fun _ => habsent (by decide) _).2
    { asserts := fun key value hvalue => ?asserts
      all := fun value hvalue => absurd hvalue (habsent (by decide) value)
      any := hany
      one := fun value hvalue => absurd hvalue (habsent (by decide) value)
      not := fun value hvalue => absurd hvalue (habsent (by decide) value)
      condition := fun value hvalue => absurd hvalue (habsent (by decide) value)
      members := fun fields hfields name value hmem => ⟨fun sub hsub => ?own,
        fun _ sub hsub => absurd hsub (habsent (by decide) sub)⟩
      names := fun _ _ sub hsub => absurd hsub (habsent (by decide) sub)
      dependencies := fun _ _ _ hentries => absurd hentries (habsent (by decide) _)
      items := fun items _ i item _ sub hsub => ?items
      contains := fun _ _ sub hsub => absurd hsub (habsent (by decide) sub) }
  case asserts =>
    obtain ⟨hassertion, hmedia, hencoding⟩ := hsilent key (hkeys _ (Fields.mem_of_get? hvalue))
    exact ⟨Assertion.holds_of_not_mem hassertion, contentFailures_of_ne value inst hmedia hencoding⟩
  case own =>
    subst hfields
    have hpatterns : keywords.get? "patternProperties" = none :=
      Option.eq_none_iff_forall_ne_some.2 (habsent (by decide))
    have hname : matchingPatterns keywords name = [] := by rw [matchingPatterns, hpatterns]
    rw [propertySchemas, hname, List.map_nil, List.append_nil, Option.mem_toList] at hsub
    rw [hproperties name sub hsub]
    exact accepts_anything ((Json.ordered_object.1 hinst).2 _ hmem)
  case items =>
    have hitems : keywords.get? "items" = none :=
      Option.eq_none_iff_forall_ne_some.2 (habsent (by decide))
    rw [itemSchema?, hitems] at hsub
    cases hsub

/-- A schema that declares one property. -/
def declaring (name : String) : Fields := [("properties", .object [(name, anything)])]

theorem declaredProperty?_declaring {name other : String} {sub : Json}
    (h : declaredProperty? (declaring name) other = some sub) : sub = anything := by
  rw [declaredProperty?_of_object rfl] at h
  exact (Prod.mk.inj (List.mem_singleton.1 (Fields.mem_of_get? h))).2

def agedPet : Fields :=
  [("allOf", .array [.object (declaring "name"), .object (declaring "age")])]

def agedPetDocument : Json := componentsDocument [("Pet", .object agedPet)]

def flatAgedPet : Fields := [("properties", .object [("age", anything), ("name", anything)])]

def petReference : String := "#/components/schemas/Pet"

theorem isPlainReference_pet : IsPlainReference petReference where
  isLocal := by decide
  plain := by decide
  valid := by decide

def agedRex : Fields := [("age", .number (.int 3)), ("name", .string "Rex")]

def openOptions : Options := { Options.defaults with closeSchemas := false }

theorem not_faulty_of_inline_untagged {schema inst : Json} (hinline : Inline schema)
    (huntagged : schema.isUntagged = true) : ¬ Faulty schema [] [] schema inst := by
  refine not_faulty_of_undiscriminated (undiscriminated_of_isUntagged huntagged) ?_
  rintro reference ⟨first, hfirst, -⟩
  rw [hinline] at hfirst
  cases hfirst

theorem composes_agedPet {part : Json} (h : Composes (.object agedPet) part) :
    part = .object agedPet ∨ part = .object (declaring "name") ∨ part = .object (declaring "age") := by
  cases h with
  | self => exact .inl rfl
  | fragment hfragments hmem hpart =>
    cases hfragments
    rcases List.mem_cons.1 hmem with rfl | hmem
    · cases hpart with
      | self => exact .inr (.inl rfl)
      | fragment hnone => cases hnone
    · cases List.mem_singleton.1 hmem
      cases hpart with
      | self => exact .inr (.inr rfl)
      | fragment hnone => cases hnone

theorem hasSchemaMaps_agedPet : HasSchemaMaps (.object agedPet) := by
  intro fields hfields name schema hschema
  rcases composes_agedPet hfields with heq | heq | heq <;> cases heq
  · cases hschema
  · rw [declaredProperty?_declaring hschema]
    exact .inl rfl
  · rw [declaredProperty?_declaring hschema]
    exact .inl rfl

/-- A pet with a name and an age, each declared by one fragment, is accepted by the closed schema too. -/
theorem agedRex_accepted :
    openOptions.closeSchemas = false ∧ Options.defaults.closeSchemas = true ∧
    agedPetDocument.ordered = true ∧ (Json.object agedRex).ordered = true ∧
    NamesSchemas [("Pet", .object agedPet)] agedPetDocument ∧ Inline (.object agedPet) ∧
    HasSchemaMaps (.object agedPet) ∧ IsPlainReference petReference ∧
    pointerSteps? petReference = some ["components", "schemas", "Pet"] ∧
    (prepare openOptions agedPetDocument).follow? ["components", "schemas", "Pet"] =
      some (.object flatAgedPet) ∧ isClosable flatAgedPet = true ∧
    acceptsReference "#/x" (prepare openOptions agedPetDocument) petReference (.object agedRex) = true ∧
    acceptsReference "#/x" (prepare Options.defaults agedPetDocument) petReference (.object agedRex) =
      true := by
  have hnamed : NamesSchemas [("Pet", .object agedPet)] agedPetDocument :=
    namesSchemas_componentsDocument fun key value hvalue => by
      cases List.mem_singleton.1 (Fields.mem_of_get? hvalue)
      rfl
  have hsteps : pointerSteps? petReference = some ["components", "schemas", "Pet"] := by decide
  have hprepared : (prepare openOptions agedPetDocument).follow? ["components", "schemas", "Pet"] =
      some (.object flatAgedPet) := rfl
  have hresolve : (prepare openOptions agedPetDocument).resolve? petReference =
      some (.object flatAgedPet) := by
    rw [Json.resolve?, hsteps]
    exact hprepared
  have hinline : Inline (.object agedPet) := by rfl
  have hflat : Inline (.object flatAgedPet) := by rfl
  have hopen : acceptsReference "#/x" (prepare openOptions agedPetDocument) petReference
      (.object agedRex) = true := by
    refine (acceptsReference_iff "#/x" isPlainReference_pet hsteps hresolve hflat (by decide)
      (by decide)).2 ⟨accepts_of_declarations (by decide) (by decide) (by decide)
        (fun name sub hsub => ?_) (fun _ hnone => by cases hnone),
        fun _ => not_faulty_of_inline_untagged hflat rfl⟩
    rw [declaredProperty?_of_object rfl] at hsub
    have hmem := Fields.mem_of_get? hsub
    simp only [List.mem_cons, Prod.mk.injEq, List.not_mem_nil, or_false] at hmem
    rcases hmem with ⟨-, rfl⟩ | ⟨-, rfl⟩ <;> rfl
  have hall : Fields.get? "allOf" agedPet =
      some (.array [.object (declaring "name"), .object (declaring "age")]) := rfl
  have hdeclares : ∀ name ∈ ["name", "age"], Declares (.object agedPet) name := by
    refine List.forall_mem_cons.2 ⟨?_, List.forall_mem_singleton.2 ?_⟩
    · exact ⟨declaring "name", .fragment hall (by simp) (.self _), rfl⟩
    · exact ⟨declaring "age", .fragment hall (by simp) (.self _), rfl⟩
  refine ⟨rfl, rfl, by decide, by decide, hnamed, hinline, hasSchemaMaps_agedPet, isPlainReference_pet,
    hsteps, hprepared, rfl, hopen, ?_⟩
  refine accepts_closed "#/x" rfl rfl (by decide) (by decide) hnamed rfl hinline hasSchemaMaps_agedPet
    isPlainReference_pet hsteps hprepared hflat (fun _ _ hproperties property hmem => ?_) hopen
  cases hproperties
  refine .inr ⟨rfl, hdeclares property.1 ?_⟩
  simp only [agedRex, List.mem_cons, List.not_mem_nil, or_false] at hmem
  rcases hmem with rfl | rfl <;> decide

/-! ## A property of an alternative -/

def alternativeFields : Fields :=
  [("anyOf", .array [.object (declaring "b")]), ("properties", .object [("a", anything)])]

def alternativeDocument : Json := componentsDocument [("Pet", .object alternativeFields)]

def onlyB : Fields := [("b", .number (.int 1))]

/-- An alternative accepts an object and declares its only property. The schema with the alternative has
properties of its own, so it is closed, and then the object is refused. -/
theorem alternative_refused :
    alternativeDocument.follow? ["components", "schemas", "Pet"] = some (.object alternativeFields) ∧
    Inline (.object alternativeFields) ∧
    alternativeFields.get? "anyOf" = some (.array [.object (declaring "b")]) ∧
    (∀ property ∈ onlyB, (declaredProperty? (declaring "b") property.1).isSome = true) ∧
    Evaluation.Accepts alternativeDocument (.object (declaring "b")) (.object onlyB) ∧
    acceptsReference "#/x" (prepare openOptions alternativeDocument) petReference (.object onlyB) = true ∧
    acceptsReference "#/x" (prepare Options.defaults alternativeDocument) petReference (.object onlyB) =
      false := by
  have hnamed : NamesSchemas [("Pet", .object alternativeFields)] alternativeDocument :=
    namesSchemas_componentsDocument fun key value hvalue => by
      cases List.mem_singleton.1 (Fields.mem_of_get? hvalue)
      rfl
  have hsteps : pointerSteps? petReference = some ["components", "schemas", "Pet"] := by decide
  have hprepared : (prepare openOptions alternativeDocument).follow? ["components", "schemas", "Pet"] =
      some (.object alternativeFields) := rfl
  have hresolve : (prepare openOptions alternativeDocument).resolve? petReference =
      some (.object alternativeFields) := by
    rw [Json.resolve?, hsteps]
    exact hprepared
  have hinline : Inline (.object alternativeFields) := by rfl
  have hbranch : ∀ root, Evaluation.Accepts root (.object (declaring "b")) (.object onlyB) := fun root =>
    accepts_of_declarations (by decide) (by decide) (by decide)
      (fun _ _ => declaredProperty?_declaring) fun _ hnone => by cases hnone
  have hopen : acceptsReference "#/x" (prepare openOptions alternativeDocument) petReference
      (.object onlyB) = true := by
    refine (acceptsReference_iff "#/x" isPlainReference_pet hsteps hresolve hinline (by decide)
      (by decide)).2 ⟨accepts_of_declarations (by decide) (by decide) (by decide)
        (fun name sub hsub => ?_) fun value hvalue => ?_,
        fun _ => not_faulty_of_inline_untagged hinline rfl⟩
    · rw [declaredProperty?_of_object rfl] at hsub
      exact (Prod.mk.inj (List.mem_singleton.1 (Fields.mem_of_get? hsub))).2
    · cases hvalue
      exact ⟨_, List.mem_singleton_self _, hbranch _⟩
  have hclosed := @accepts_closed_iff alternativeDocument (.object onlyB) _ _ _ _ _ _ _ "#/x"
    (rfl : openOptions.closeSchemas = false) (rfl : Options.defaults.closeSchemas = true) (by decide)
    (by decide) hnamed rfl hinline isPlainReference_pet hsteps hprepared hinline
  refine ⟨rfl, hinline, rfl, by decide, hbranch _, hopen, Bool.eq_false_iff.2 fun haccepts => ?_⟩
  exact (hclosed.1 haccepts).2 rfl onlyB rfl ("b", .number (.int 1)) (List.mem_singleton_self _) rfl

end ApiContract
