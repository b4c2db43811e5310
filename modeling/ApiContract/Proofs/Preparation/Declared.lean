import ApiContract.Proofs.Preparation.Inline

/-! # Names that a composition declares

A composition declares a property if one of the schemas that it is made of has it under `properties`.
Merging brings the names of all of them together, and each step of the preparation leaves them where they
are, as long as it takes no map of properties for a schema.

* `Composes`, `Declares`: the schemas of a composition, and the names in them.
* `IsNamed`, `HasSchemaMap`: maps of properties that no walk takes for schemas.
* `Declares.normalizeDialect`: names after the walk over the dialect.
* `Gathers`, `gathers_of_walked`: names after flattening. -/

set_option autoImplicit false

namespace ApiContract

/-! ## Compositions -/

/-- The schemas that a composition is made of: itself, and those that its fragments are made of. -/
inductive Composes : Json → Json → Prop where
  | self (schema : Json) : Composes schema schema
  | fragment {fields : Fields} {fragments : List Json} {fragment part : Json}
    (hfragments : fields.get? "allOf" = some (.array fragments)) (hmem : fragment ∈ fragments)
    (h : Composes fragment part) : Composes (.object fields) part

/-- A name among the properties of a schema or of one that it is made of. -/
def Declares (schema : Json) (name : String) : Prop :=
  ∃ fields, Composes schema (.object fields) ∧ (declaredProperty? fields name).isSome = true

/-- A value that no walk takes for a keyword of the name that it stands under. -/
def IsNamed (name : String) (value : Json) : Prop := value.isObject = true ∨
  (value.items? = none ∧ ∀ flag : Bool, value = .bool flag →
    name ∉ ["nullable", "exclusiveMinimum", "exclusiveMaximum"])

/-- A schema whose properties are a map of schemas, also to the walks. -/
def HasSchemaMap (keywords : Fields) : Prop :=
  ∀ name schema, declaredProperty? keywords name = some schema → IsNamed name schema

/-- All schemas that a composition is made of have such maps. -/
def HasSchemaMaps (schema : Json) : Prop :=
  ∀ fields, Composes schema (.object fields) → HasSchemaMap fields

section

variable {fields keywords : Fields} {name : String} {value result : Json} {fragments : List Json}

theorem IsNamed.of_sameKind (h : IsNamed name value) (hkind : SameKind value result) :
    IsNamed name result := by
  cases hkind with
  | refl => exact h
  | array =>
    rcases h with hobject | ⟨hitems, -⟩
    · cases hobject
    · cases hitems
  | object => exact .inl rfl

theorem HasSchemaMap.isMap {properties : Fields} (h : HasSchemaMap keywords)
    (hproperties : keywords.get? "properties" = some (.object properties)) : IsMap properties := by
  have hnamed : ∀ {key value}, properties.get? key = some value → IsNamed key value :=
    fun hvalue => h _ _ ((declaredProperty?_of_object hproperties).trans hvalue)
  refine ⟨fun key hkey flag hflag => ?_, fun items hitems => ?_, fun _ items _ hitems => ?_⟩
  · rcases hnamed hflag with hobject | ⟨-, hflags⟩
    · cases hobject
    · exact hflags flag rfl hkey
  · rcases hnamed hitems with hobject | ⟨hlist, -⟩
    · cases hobject
    · cases hlist
  · rcases hnamed hitems with hobject | ⟨hlist, -⟩
    · cases hobject
    · cases hlist

theorem HasSchemaMap.ne_fragments (h : HasSchemaMap keywords) (given : List Json) :
    declaredProperty? keywords "allOf" ≠ some (.array given) := by
  intro hfragments
  obtain ⟨properties, hproperties, hname⟩ := declaredProperty?_eq_some.1 hfragments
  exact (h.isMap hproperties).fragments given hname

theorem HasSchemaMaps.self (h : HasSchemaMaps (.object fields)) : HasSchemaMap fields :=
  h fields (.self _)

theorem HasSchemaMaps.fragment (h : HasSchemaMaps (.object fields))
    (hfragments : fields.get? "allOf" = some (.array fragments)) (hmem : value ∈ fragments) :
    HasSchemaMaps value :=
  fun given hgiven => h given (.fragment hfragments hmem hgiven)

/-- A name is among the own properties of a schema, or one of its fragments declares it. -/
theorem Declares.own_or_fragment (h : Declares (.object fields) name) :
    (declaredProperty? fields name).isSome = true ∨
      ∃ fragments, fields.get? "allOf" = some (.array fragments) ∧
        ∃ fragment ∈ fragments, Declares fragment name := by
  obtain ⟨given, hcomposes, hname⟩ := h
  cases hcomposes with
  | self => exact .inl hname
  | fragment hfragments hmem hinner => exact .inr ⟨_, hfragments, _, hmem, given, hinner, hname⟩

end

/-- A walk goes through the properties name by name. -/
theorem IsWalk.declaredProperty? {walk : Json → Json} {passes : String → Bool}
    {finish : Fields → Fields} {fields results : Fields} (hwalk : IsWalk walk passes finish)
    (h : HasSchemaMap fields)
    (hget : results.get? "properties" = (fields.get? "properties").map walk) (name : String) :
    ApiContract.declaredProperty? results name =
      (ApiContract.declaredProperty? fields name).map (walkField walk passes name) := by
  cases hproperties : fields.get? "properties" with
  | none =>
    rw [hproperties, Option.map_none] at hget
    rw [ApiContract.declaredProperty?, ApiContract.declaredProperty?, hget, hproperties, Option.map_none]
  | some held =>
    rw [hproperties, Option.map_some] at hget
    have hkind := hwalk.kind held
    cases held with
    | object properties =>
      have hmap := (h.isMap hproperties).map hwalk.sameKind_walkField
      rw [hwalk.object, hwalk.map _ hmap] at hget
      rw [declaredProperty?_of_object hget, Fields.get?_map, declaredProperty?_of_object hproperties]
    | _ =>
      generalize walk _ = walked at hget hkind
      cases hkind
      all_goals
        rw [ApiContract.declaredProperty?, ApiContract.declaredProperty?, hget, hproperties]
        rfl

/-! ## The dialect -/

section

open Dialect

variable {fields : Fields} {schema part : Json}

theorem declaredProperty?_normalized (h : HasSchemaMap fields) (name : String) :
    declaredProperty? (normalized fields) name =
      (declaredProperty? fields name).map (walkField normalizeDialect isDataKeyword name) :=
  isWalk_normalizeDialect.declaredProperty? h (get?_normalized_of_not_walked (by decide)) name

theorem Composes.normalizeDialect (h : Composes schema part) :
    Composes (ApiContract.normalizeDialect schema) (ApiContract.normalizeDialect part) := by
  induction h with
  | self schema => exact .self _
  | @fragment fields fragments fragment part hfragments hmem _ ih =>
    have hwalked : (normalized fields).get? "allOf" =
        some (.array (fragments.map ApiContract.normalizeDialect)) := by
      rw [get?_normalized_of_not_walked (by decide), hfragments, Option.map_some, ← normalizeItems_eq_map]
      rfl
    rw [normalizeDialect_object]
    exact .fragment hwalked (List.mem_map_of_mem hmem) ih

theorem exists_composes_of_normalizeDialect {whole : Json} (h : Composes whole part)
    (hwhole : whole = normalizeDialect schema) :
    ∃ given, Composes schema given ∧ part = normalizeDialect given := by
  induction h generalizing schema with
  | self => exact ⟨schema, .self schema, hwhole⟩
  | @fragment fields fragments fragment part hfragments hmem _ ih =>
    obtain ⟨given, rfl⟩ := (hwhole ▸ isWalk_normalizeDialect.kind schema).exists_object
    rw [normalizeDialect_object, Json.object.injEq] at hwhole
    rw [hwhole, get?_normalized_of_not_walked (by decide), Option.map_eq_some_iff] at hfragments
    obtain ⟨held, hheld, hwalked⟩ := hfragments
    cases held with
    | array items =>
      change normalizeDialect (.array items) = _ at hwalked
      rw [ApiContract.normalizeDialect, normalizeItems_eq_map, Json.array.injEq] at hwalked
      subst hwalked
      obtain ⟨item, hitem, rfl⟩ := List.mem_map.1 hmem
      obtain ⟨found, hfound, hpart⟩ := ih rfl
      exact ⟨found, .fragment hheld hitem hfound, hpart⟩
    | _ => cases hwalked

theorem HasSchemaMaps.normalizeDialect (h : HasSchemaMaps schema) :
    HasSchemaMaps (ApiContract.normalizeDialect schema) := by
  intro fields hfields name value hvalue
  obtain ⟨given, hgiven, heq⟩ := exists_composes_of_normalizeDialect hfields rfl
  obtain ⟨given, rfl⟩ := (heq ▸ isWalk_normalizeDialect.kind given).exists_object
  rw [normalizeDialect_object, Json.object.injEq] at heq
  rw [heq, declaredProperty?_normalized (h given hgiven), Option.map_eq_some_iff] at hvalue
  obtain ⟨old, hold, rfl⟩ := hvalue
  exact (h given hgiven name old hold).of_sameKind (isWalk_normalizeDialect.sameKind_walkField name old)

theorem Declares.normalizeDialect {name : String} (hmaps : HasSchemaMaps schema)
    (h : Declares schema name) : Declares (ApiContract.normalizeDialect schema) name := by
  obtain ⟨fields, hfields, hname⟩ := h
  have hwalked := hfields.normalizeDialect
  rw [normalizeDialect_object] at hwalked
  refine ⟨normalized fields, hwalked, ?_⟩
  rw [declaredProperty?_normalized (hmaps fields hfields), Option.isSome_map]
  exact hname

end

/-! ## Merging -/

section

variable {target fragment merged : Fields} {name : String}

theorem isSome_bothMerged? {own other : Option Json} :
    (bothMerged? own other).isSome = (own.isSome || other.isSome) := by
  cases own <;> cases other <;> rfl

theorem HasSchemaMap.mergeFields (htarget : HasSchemaMap target) (hfragment : HasSchemaMap fragment)
    (hordered : (Json.object fragment).ordered = true)
    (h : ApiContract.mergeFields target fragment = some merged) : HasSchemaMap merged := by
  intro name schema hschema
  rw [declaredProperty?_mergeFields hordered h] at hschema
  cases hown : declaredProperty? target name with
  | none =>
    rw [hown] at hschema
    exact hfragment name schema hschema
  | some own =>
    rw [hown] at hschema
    cases hother : declaredProperty? fragment name with
    | none =>
      rw [hother] at hschema
      cases hschema
      exact htarget name _ hown
    | some other =>
      rw [hother] at hschema
      cases hschema
      exact .inl (isObject_mergeSchemas _ _)

end

/-! ## Flattening -/

/-- The keywords of a flat schema have the names that the schema declares: its own, and if it is no
composition any more those of all that it was made of. -/
structure Gathers (schema : Json) (flat : Fields) : Prop where
  maps : HasSchemaMap flat
  own : ∀ fields, schema = .object fields → ∀ name, (declaredProperty? fields name).isSome = true →
    (declaredProperty? flat name).isSome = true
  all : flat.hasKey "allOf" = false → ∀ name, Declares schema name →
    (declaredProperty? flat name).isSome = true

theorem Gathers.self {fields : Fields} (h : HasSchemaMaps (.object fields)) :
    Gathers (.object fields) fields where
  maps := h.self
  own _ heq _ hname := by
    cases heq
    exact hname
  all hnone name hname := by
    rcases hname.own_or_fragment with hown | ⟨given, hgiven, -⟩
    · exact hown
    · rw [Fields.hasKey, hgiven] at hnone
      cases hnone

section

variable {document : Json} {depth : Nat} {followed : List String}

/-- What is merged of fragments has the names of what it was merged into, and of each of them. -/
theorem gathers_mergeFragments? {fragments : List Json} {target merged : Fields}
    (hfragment : ∀ fragment ∈ fragments, ∀ keywords,
      resolveFragment? document depth followed fragment = some (some keywords) →
        (Json.object keywords).ordered = true ∧ HasSchemaMap keywords ∧
          ∀ name, Declares fragment name → (declaredProperty? keywords name).isSome = true)
    (htarget : HasSchemaMap target)
    (h : fragments.foldlM (mergeFragment? document depth followed) (some target) = some (some merged)) :
    HasSchemaMap merged ∧ (∀ name, (declaredProperty? target name).isSome = true →
        (declaredProperty? merged name).isSome = true) ∧
      ∀ fragment ∈ fragments, ∀ name, Declares fragment name →
        (declaredProperty? merged name).isSome = true := by
  induction fragments generalizing target with
  | nil =>
    cases h
    exact ⟨htarget, fun _ => id, List.forall_mem_nil _⟩
  | cons fragment rest ih =>
    rw [List.forall_mem_cons] at hfragment
    rw [List.foldlM_cons] at h
    obtain ⟨next, hnext, h⟩ := Option.bind_eq_some_iff.1 h
    obtain ⟨resolved, hresolved, rfl⟩ := Option.map_eq_some_iff.1 hnext
    cases hown : resolved.bind (mergeFields target) with
    | none =>
      rw [hown, foldlM_mergeFragment?_none] at h
      cases h
    | some middle =>
      rw [hown] at h
      obtain ⟨keywords, rfl, hmiddle⟩ := Option.bind_eq_some_iff.1 hown
      obtain ⟨hordered, hmap, hnames⟩ := hfragment.1 keywords hresolved
      have hboth : ∀ name, (declaredProperty? middle name).isSome =
          ((declaredProperty? target name).isSome || (declaredProperty? keywords name).isSome) :=
        fun name => by rw [declaredProperty?_mergeFields hordered hmiddle, isSome_bothMerged?]
      obtain ⟨hmerged, hkept, hothers⟩ := ih hfragment.2 (htarget.mergeFields hmap hordered hmiddle) h
      refine ⟨hmerged, fun name hname => hkept name ?_,
        List.forall_mem_cons.2 ⟨fun name hname => ?_, hothers⟩⟩
      · rw [hboth, hname, Bool.true_or]
      · exact hkept name (by rw [hboth, hnames name hname, Bool.or_true])

theorem gathers_composedFields? {fields keywords : Fields} (hmaps : HasSchemaMaps (.object fields))
    (hfragment : ∀ fragments, fields.get? "allOf" = some (.array fragments) → ∀ fragment ∈ fragments,
      ∀ keywords, resolveFragment? document depth followed fragment = some (some keywords) →
        (Json.object keywords).ordered = true ∧ HasSchemaMap keywords ∧
          ∀ name, Declares fragment name → (declaredProperty? keywords name).isSome = true)
    (h : composedFields? document depth followed fields = some keywords) :
    Gathers (.object fields) keywords := by
  unfold composedFields? at h
  split at h
  · rename_i fragments hfragments
    obtain ⟨flat, hflat, rfl⟩ := Option.map_eq_some_iff.1 h
    cases flat with
    | none => exact .self hmaps
    | some merged =>
      have herased : ∀ name, declaredProperty? (fields.erase "allOf") name =
          declaredProperty? fields name := fun name =>
        declaredProperty?_congr (by rw [Fields.get?_erase, if_neg (by decide)])
      have htarget : HasSchemaMap (fields.erase "allOf") := fun name schema hschema =>
        hmaps.self name schema ((herased name).symm.trans hschema)
      obtain ⟨hmap, hkept, hothers⟩ :=
        gathers_mergeFragments? (hfragment fragments hfragments) htarget hflat
      have hown : ∀ name, (declaredProperty? fields name).isSome = true →
          (declaredProperty? merged name).isSome = true :=
        fun name hname => hkept name (by rw [herased, hname])
      refine ⟨hmap, fun _ heq => ?_, fun _ name hname => ?_⟩
      · cases heq
        exact hown
      · rcases hname.own_or_fragment with hself | ⟨given, hgiven, fragment, hmem, hinner⟩
        · exact hown name hself
        · cases hfragments.symm.trans hgiven
          exact hothers fragment hmem name hinner
  · cases h
    exact .self hmaps

/-- The walk over the keywords leaves the names where they are. -/
theorem Gathers.walked {schema : Json} {keywords flat : Fields} (h : Gathers schema keywords)
    (hwalked : WalkedFields document depth followed keywords flat) : Gathers schema flat := by
  have hnames := declaredProperty?_walked hwalked h.maps.ne_fragments
  have hkept : ∀ name, (declaredProperty? keywords name).isSome = true →
      (declaredProperty? flat name).isSome = true := by
    intro name hname
    rw [Option.isSome_iff_ne_none] at hname ⊢
    exact fun hnone => hname ((hnames name).1.1 hnone)
  refine ⟨fun name result hresult => ?_,
    fun fields heq name hname => hkept name (h.own fields heq name hname),
    fun hall name hname => hkept name (h.all ?_ name hname)⟩
  · obtain ⟨value, hvalue, hwalk⟩ := (hnames name).2 result hresult
    exact (h.maps name value hvalue).of_sameKind hwalk.sameKind
  · rw [Fields.hasKey_eq_false_iff] at hall ⊢
    exact (hwalked.absent "allOf").1 hall

/-- Flattening gathers the names of a composition without references. -/
theorem gathers_flattening (hdocument : document.ordered = true) (depth : Nat) :
    (∀ followed schema flat, schema.ordered = true → Inline schema → HasSchemaMaps schema →
      flattenNode? document depth followed schema = some (.object flat) → Gathers schema flat) ∧
    (∀ followed fragment keywords, fragment.ordered = true → Inline fragment → HasSchemaMaps fragment →
      resolveFragment? document depth followed fragment = some (some keywords) →
        (Json.object keywords).ordered = true ∧ HasSchemaMap keywords ∧
          ∀ name, Declares fragment name → (declaredProperty? keywords name).isSome = true) := by
  induction depth with
  | zero => exact ⟨nofun, nofun⟩
  | succ depth ih =>
    obtain ⟨ihnode, ihfragment⟩ := ih
    refine ⟨fun followed schema flat hordered hinline hmaps hflat => ?_,
      fun followed fragment keywords hordered hinline hmaps hkeywords => ?_⟩
    · obtain ⟨fields, rfl⟩ := (sameKind_of_flattenNode? hflat).exists_object
      rw [flattenNode?_object, Option.bind_eq_some_iff] at hflat
      obtain ⟨keywords, hkeywords, hflat⟩ := hflat
      obtain ⟨results, hresults, heq⟩ := Option.map_eq_some_iff.1 hflat
      cases heq
      refine (gathers_composedFields? hmaps (fun fragments hfragments fragment hmem given => ?_)
        hkeywords).walked (walkedFields_of_mapValues? (Nat.le_refl depth) hresults)
      have hlist := Json.ordered_array.1 (Json.ordered_of_get? hordered hfragments)
      refine ihfragment followed fragment given (hlist fragment hmem) (hinline.of_subset ?_)
        (hmaps.fragment hfragments hmem)
      exact List.Subset.trans (Json.allReferences_subset_of_item hmem)
        (Json.allReferences_subset_of_mem (Fields.mem_of_get? hfragments))
    · have hkept := ordered_of_resolveFragment? hdocument hordered hkeywords
      unfold resolveFragment? at hkeywords
      rw [hinline.reference?] at hkeywords
      obtain ⟨flat, hflat, hkeywords⟩ := Option.map_eq_some_iff.1 hkeywords
      unfold flatFragment? at hkeywords
      split at hkeywords
      · split at hkeywords
        · cases hkeywords
        · rename_i hall
          cases hkeywords
          have hgathers := ihnode followed fragment keywords hordered hinline hmaps hflat
          exact ⟨hkept, hgathers.maps, hgathers.all (Bool.eq_false_iff.2 hall)⟩
      · cases hkeywords

/-- A composition without references, after the walk or as it was. -/
theorem gathers_of_walked {schema : Json} {flat : Fields} (hdocument : document.ordered = true)
    (hordered : schema.ordered = true) (hinline : Inline schema) (hmaps : HasSchemaMaps schema)
    (h : Walked document depth followed schema (.object flat)) : Gathers schema flat := by
  cases h with
  | kept => exact .self hmaps
  | flattened _ hflat =>
    exact (gathers_flattening hdocument _).1 followed schema flat hordered hinline hmaps hflat

end

/-! ## Before and after -/

section

variable {document : Json} {keywords flat : Fields} {schema : Json}

/-- The names of a schema are gathered if they are after the walk over the dialect. -/
theorem Gathers.of_normalized (hmaps : HasSchemaMaps schema) (h : Gathers (normalizeDialect schema) flat) :
    Gathers schema flat where
  maps := h.maps
  own fields heq name hname := by
    subst heq
    refine h.own _ (Dialect.normalizeDialect_object fields) name ?_
    rw [declaredProperty?_normalized hmaps.self, Option.isSome_map]
    exact hname
  all hall name hname := h.all hall name (hname.normalizeDialect hmaps)

/-- Cases are introduced as further fragments. -/
theorem hasKey_allOf_of_schemaWithCases (h : (schemaWithCases document keywords).hasKey "allOf" = false) :
    keywords.hasKey "allOf" = false := by
  unfold schemaWithCases at h
  split at h
  · split at h
    · rw [Fields.hasKey, get?_withCases, if_neg (by decide), if_pos rfl] at h
      cases h
    · exact h
  · exact h

/-- The introduction of cases leaves the names where they are. -/
theorem Gathers.nodeWithCases (h : Gathers schema flat)
    (hcases : ApiContract.nodeWithCases document (.object flat) = .object keywords) :
    Gathers schema keywords := by
  rw [(isWalk_nodeWithCases document).object, Json.object.injEq] at hcases
  subst hcases
  have hwalk := isWalk_nodeWithCases document
  generalize hwalked : flat.map (fun field => (field.1,
    walkField (ApiContract.nodeWithCases document) passesCases field.1 field.2)) = walked
  have hget : ∀ key, Fields.get? key walked =
      (flat.get? key).map (walkField (ApiContract.nodeWithCases document) passesCases key) :=
    fun key => hwalked ▸ Fields.get?_map _
  have hproperties : (schemaWithCases document walked).get? "properties" =
      (flat.get? "properties").map (ApiContract.nodeWithCases document) :=
    (get?_schemaWithCases_of_ne (by decide)).trans (hget _)
  have hnames := hwalk.declaredProperty? h.maps hproperties
  have hkept : ∀ name, (declaredProperty? flat name).isSome = true →
      (declaredProperty? (schemaWithCases document walked) name).isSome = true :=
    fun name hname => by rw [hnames, Option.isSome_map, hname]
  refine ⟨fun name value hvalue => ?_,
    fun fields heq name hname => hkept name (h.own fields heq name hname),
    fun hall name hname => hkept name (h.all ?_ name hname)⟩
  · rw [hnames, Option.map_eq_some_iff] at hvalue
    obtain ⟨old, hold, rfl⟩ := hvalue
    exact (h.maps name old hold).of_sameKind (hwalk.sameKind_walkField name old)
  · have hnone := hasKey_allOf_of_schemaWithCases hall
    rw [Fields.hasKey, hget, Option.isSome_map] at hnone
    exact hnone

end

end ApiContract
