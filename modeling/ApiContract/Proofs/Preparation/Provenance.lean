import ApiContract.Proofs.Preparation.Weighing

/-! # What a flattened document is made of

Flattening makes schemas that do not stand in the document. Each is made of schemas that do: they have been
merged, or wait under `allOf` to be merged.

* `Made`: a value that schemas are merged to, or that stands in what they are merged to.
* `made_of_merged`, `made_of_plain`: a node of the document is made of itself.
* `Made.merging_keywords`, `Made.merging`: what two schemas are merged to is made of what both are made of. -/

set_option autoImplicit false

namespace ApiContract

open Relation

/-- What a value is to some schemas: what they are merged to, the keywords of it, the properties among these,
the schema of a property, or anything else that stands in it. -/
inductive Role where
  | schema
  | keywords
  | properties
  | property (name : String)
  | part

def Role.isProperty : Role → Bool
  | .property _ => true
  | _ => false

/-- Whether the role of an object tells nothing but the roles of its members. -/
def Role.isMap : Role → Bool
  | .properties => true
  | .part => true
  | _ => false

def Role.member (name : String) : Role → Role
  | .properties => .property name
  | _ => .part

/-- The role of what stands under a keyword. -/
def Role.under (key : String) : Role := if key = "properties" then .properties else .part

/-- A value that some schemas of the document are merged to, or that stands in what they are merged to. The
layers of a schema have been merged already, the parts are those that wait under `allOf`. -/
inductive Made (document : Json) : Role → Multiset Json → Json → Prop where
  | plain {role : Role} {schemas : Multiset Json} {value : Json} (hrole : role.isProperty = false)
    (hobject : ∀ fields, value ≠ .object fields) (hlist : ∀ items, value ≠ .array items) :
    Made document role schemas value
  | list {role : Role} {schemas : Multiset Json} {items : List Json} (hrole : role.isProperty = false)
    (h : ∀ item ∈ items, Made document .part schemas item) : Made document role schemas (.array items)
  | part {schemas : Multiset Json} {node : Json} {fields : Fields} (hbelow : Below document schemas node)
    (hnode : (fragments? node).isSome = true) (h : Made document .schema {node} (.object fields)) :
    Made document .part schemas (.object fields)
  | property {name : String} {schemas collected : Multiset Json} {value : Json}
    (hdata : isDataKeyword name = false) (hcollects : Collects document schemas name collected)
    (h : Made document .schema collected value) : Made document (.property name) schemas value
  | members {role : Role} {schemas : Multiset Json} {fields : Fields} (hrole : role.isMap = true)
    (hfragments : fragments? (.object fields) = none)
    (h : ∀ name value, fields.get? name = some value → isDataKeyword name = false →
      Made document (role.member name) schemas value) : Made document role schemas (.object fields)
  | keywords {layers : Multiset Json} {fields : Fields}
    (hreference : ∀ reference, fields.get? "$ref" = some (.string reference) →
      ∃ layer ∈ layers, layer.reference? = some reference)
    (h : ∀ key value, fields.get? key = some value → isDataKeyword key = false →
      (key = "allOf" → fragments? (.object fields) = none) → Made document (.under key) layers value) :
    Made document .keywords layers (.object fields)
  | schema {schemas : Multiset Json} {fields : Fields} (layers : Multiset Json)
    (parts : List (Multiset Json × Json))
    (hunfolds : UnfoldsTo document schemas (layers + (parts.map Prod.fst).sum))
    (hfragments : (fragments? (.object fields)).getD [] = parts.map Prod.snd)
    (hproper : (fragments? (.object fields)).isSome = true →
      Proper document schemas (layers + (parts.map Prod.fst).sum))
    (hsmall : ∀ part ∈ parts, part.1 ≤ schemas ∨ Multiset.card part.1 = 1)
    (hparts : ∀ part ∈ parts, Made document .schema part.1 part.2)
    (hkeywords : Made document .keywords layers (.object fields)) :
    Made document .schema schemas (.object fields)

section

variable {document node value : Json} {schemas layers others : Multiset Json} {fields : Fields}
  {key name : String} {role : Role}

namespace Made

theorem items {items : List Json} (hrole : role.isProperty = false)
    (h : Made document role schemas (.array items)) : ∀ item ∈ items, Made document .part schemas item := by
  cases h with
  | plain _ _ hlist => exact absurd rfl (hlist items)
  | list _ h => exact h
  | property => cases hrole

theorem keyword (h : Made document .keywords layers (.object fields)) (hvalue : fields.get? key = some value)
    (hdata : isDataKeyword key = false) (hallOf : key = "allOf" → fragments? (.object fields) = none) :
    Made document (.under key) layers value := by
  cases h with
  | plain _ hobject _ => exact absurd rfl (hobject fields)
  | members hrole => cases hrole
  | keywords _ h => exact h key value hvalue hdata hallOf

theorem reference {reference : String} (h : Made document .keywords layers (.object fields))
    (hreference : fields.get? "$ref" = some (.string reference)) :
    ∃ layer ∈ layers, layer.reference? = some reference := by
  cases h with
  | plain _ hobject _ => exact absurd rfl (hobject fields)
  | members hrole => cases hrole
  | keywords h => exact h reference hreference

/-- What stands in schemas stands in others that have all they have. -/
theorem mono (hbelow : ∀ node, Below document schemas node → Below document others node)
    (h : Made document .part schemas value) : Made document .part others value := by
  induction value using Json.partsInduction with
  | object fields ih =>
    cases h with
    | plain _ hobject _ => exact absurd rfl (hobject fields)
    | part hnode hsome h => exact .part (hbelow _ hnode) hsome h
    | members _ hfragments h =>
      refine .members rfl hfragments fun name value hvalue hdata => ?_
      exact ih (name, value) (Fields.mem_of_get? hvalue) (h name value hvalue hdata)
  | array items ih => exact .list rfl fun item hitem => ih item hitem (h.items rfl item hitem)
  | plain value hobject hlist => exact .plain rfl hobject hlist

theorem exists_collected (h : Made document (.property name) schemas value) : isDataKeyword name = false ∧
    ∃ collected, Collects document schemas name collected ∧ Made document .schema collected value := by
  cases h with
  | plain hrole => cases hrole
  | list hrole => cases hrole
  | property hdata hcollects h => exact ⟨hdata, _, hcollects, h⟩
  | members hrole => cases hrole

theorem under_mono (hunfolds : UnfoldsTo document others schemas)
    (h : Made document (.under key) schemas value) : Made document (.under key) others value := by
  have hbelow : ∀ node, Below document schemas node → Below document others node :=
    fun node hnode => hnode.of_unfoldsTo hunfolds
  by_cases hkey : key = "properties"
  · rw [Role.under, if_pos hkey] at h ⊢
    cases h with
    | plain hrole hobject hlist => exact .plain hrole hobject hlist
    | list hrole h => exact .list hrole fun item hitem => (h item hitem).mono hbelow
    | members hrole hfragments h =>
      refine .members hrole hfragments fun name value hvalue hdata => ?_
      obtain ⟨hname, collected, hcollects, h⟩ := (h name value hvalue hdata).exists_collected
      exact .property hname (hcollects.of_unfoldsTo hunfolds) h
  · rw [Role.under, if_neg hkey] at h ⊢
    exact h.mono hbelow

/-- A schema without fragments is made of the layers of its keywords. -/
theorem of_keywords (hunfolds : UnfoldsTo document schemas layers)
    (hfragments : fragments? (.object fields) = none)
    (h : Made document .keywords layers (.object fields)) : Made document .schema schemas (.object fields) := by
  refine .schema layers [] ?_ ?_ ?_ ?_ ?_ h
  · simpa using hunfolds
  · rw [hfragments]
    rfl
  · simp [hfragments]
  · exact List.forall_mem_nil _
  · exact List.forall_mem_nil _

/-- The layers and the parts that an object is made of. -/
theorem exists_parts (h : Made document .schema schemas (.object fields)) :
    ∃ (layers : Multiset Json) (parts : List (Multiset Json × Json)),
      UnfoldsTo document schemas (layers + (parts.map Prod.fst).sum) ∧
      (fragments? (.object fields)).getD [] = parts.map Prod.snd ∧
      ((fragments? (.object fields)).isSome = true →
        Proper document schemas (layers + (parts.map Prod.fst).sum)) ∧
      (∀ part ∈ parts, part.1 ≤ schemas ∨ Multiset.card part.1 = 1) ∧
      (∀ part ∈ parts, Made document .schema part.1 part.2) ∧
      Made document .keywords layers (.object fields) := by
  cases h with
  | plain _ hobject _ => exact absurd rfl (hobject fields)
  | members hrole => cases hrole
  | schema layers parts hunfolds hfragments hproper hsmall hparts hkeywords =>
    exact ⟨layers, parts, hunfolds, hfragments, hproper, hsmall, hparts, hkeywords⟩

theorem exists_layers (hfragments : fragments? (.object fields) = none)
    (h : Made document .schema schemas (.object fields)) :
    ∃ layers, UnfoldsTo document schemas layers ∧ Made document .keywords layers (.object fields) := by
  obtain ⟨layers, parts, hunfolds, hparts, -, -, -, hkeywords⟩ := h.exists_parts
  rw [hfragments] at hparts
  obtain rfl : parts = [] := List.map_eq_nil_iff.1 hparts.symm
  exact ⟨layers, by simpa using hunfolds, hkeywords⟩

end Made

/-! ## Nodes of the document -/

/-- What stands in a node is made of it, if compositions are made of themselves. -/
theorem made_part_of_step (hstep : NodeStep document node value)
    (hplain : fragments? value = none → Made document .part {value} value)
    (hcomposition : (fragments? value).isSome = true → Made document .schema {value} value) :
    Made document .part {node} value := by
  cases hfragments : fragments? value with
  | none =>
    refine (hplain hfragments).mono fun other hother => ?_
    obtain ⟨schema, hschema, hreaches⟩ := hother
    rw [Multiset.mem_singleton.1 hschema] at hreaches
    exact ⟨node, Multiset.mem_singleton_self node, .head hstep hreaches⟩
  | some fragments =>
    have hsome : (fragments? value).isSome = true := by
      rw [hfragments]
      rfl
    obtain ⟨fields, rfl, -⟩ := fragments?_eq_some.1 hfragments
    exact .part ⟨node, Multiset.mem_singleton_self node, .single hstep⟩ hsome (hcomposition hsome)

/-- A node that is no composition is made of itself, if the compositions in it are. -/
theorem made_plain {size : Nat}
    (hmade : ∀ value, Merged document value → sizeOf value < size → Made document .schema {value} value)
    (hnode : ReflTransGen (NodeStep document) document node) (hfragments : fragments? node = none)
    (hsize : sizeOf node ≤ size) : Made document .part {node} node := by
  induction node using Json.partsInduction with
  | object fields ih =>
    refine .members rfl hfragments fun key value hvalue hdata => ?_
    have hstep : NodeStep document (.object fields) value := .of_get? hvalue hdata
    have hreached := hnode.tail hstep
    have hlt := Nat.lt_of_lt_of_le (Json.sizeOf_member_lt (Fields.mem_of_get? hvalue)) hsize
    refine made_part_of_step hstep (fun hnone => ?_) fun hsome => hmade value (.composition hreached hsome) hlt
    exact ih (key, value) (Fields.mem_of_get? hvalue) hreached hnone hlt.le
  | array items ih =>
    refine .list rfl fun item hitem => ?_
    have hstep : NodeStep document (.array items) item := .item hitem
    have hreached := hnode.tail hstep
    have hlt := Nat.lt_of_lt_of_le (Json.sizeOf_item_lt hitem) hsize
    refine made_part_of_step hstep (fun hnone => ?_) fun hsome => hmade item (.composition hreached hsome) hlt
    exact ih item hitem hreached hnone hlt.le
  | plain value hobject hlist => exact .plain rfl hobject hlist

theorem sum_map_singleton (fragments : List Json) :
    ((fragments.map fun fragment => (({fragment} : Multiset Json), fragment)).map Prod.fst).sum =
      fragments := by
  induction fragments with
  | nil => rfl
  | cons fragment rest ih =>
    rw [List.map_cons, List.map_cons, List.sum_cons, ih]
    rfl

/-- No properties of a schema that is merged have a list named `allOf` among them, which would make them a
composition. -/
def PlainProperties (document : Json) : Prop :=
  ∀ fields properties : Fields, Merged document (.object fields) →
    fields.get? "properties" = some (.object properties) → fragments? (.object properties) = none

theorem made_properties (hplain : PlainProperties document) {properties : Fields}
    (hnode : Merged document (.object fields))
    (hproperties : fields.get? "properties" = some (.object properties))
    (h : ∀ name schema, properties.get? name = some schema → Merged document schema →
      Made document .schema {schema} schema) :
    Made document .properties {.object fields} (.object properties) := by
  refine .members rfl (hplain fields properties hnode hproperties) fun name schema hschema hdata => ?_
  have hproperty : property? name (.object fields) = some schema :=
    declaredProperty?_eq_some.2 ⟨properties, hproperties, hschema⟩
  have hcollected : Multiset.filterMap (property? name) {.object fields} = {schema} :=
    Multiset.filterMap_cons_some _ _ 0 hproperty
  have hunfolds : UnfoldsTo document {.object fields} {.object fields} := .refl
  refine .property hdata ⟨Multiset.singleton_ne_zero schema, _, hunfolds, ?_⟩
    (h name schema hschema (.property hnode hdata hproperty))
  rw [hcollected]

/-- The keywords of a node, apart from a list under `allOf`, stand in it, and in the rest of it that this list
leaves. -/
theorem made_keywords (hplain : PlainProperties document) {rest : Fields}
    (hrest : Merged document (.object rest))
    (hfields : ∀ key value, fields.get? key = some value →
      (key = "allOf" → fragments? (.object fields) = none) → rest.get? key = some value)
    (h : ∀ value, Merged document value → sizeOf value < sizeOf (Json.object fields) →
      Made document .schema {value} value) : Made document .keywords {.object rest} (.object fields) := by
  refine .keywords (fun reference hreference => ?_) fun key value hvalue hdata hallOf => ?_
  · refine ⟨_, Multiset.mem_singleton_self _, ?_⟩
    have hkept := hfields "$ref" _ hreference fun heq => absurd heq (by decide)
    rw [Json.reference?, Json.getString?, Json.get?, hkept]
    rfl
  · have hvalue' := hfields key value hvalue hallOf
    have hstep : NodeStep document (.object rest) value := .of_get? hvalue' hdata
    have hreached := hrest.reached.tail hstep
    have hsize := Json.sizeOf_member_lt (Fields.mem_of_get? hvalue)
    have hpart : Made document .part {.object rest} value :=
      made_part_of_step hstep (fun hnone => made_plain h hreached hnone hsize.le)
        fun hsome => h value (.composition hreached hsome) hsize
    unfold Role.under
    split
    · rename_i hkey
      subst hkey
      cases value using Json.partsInduction with
      | object properties _ =>
        refine made_properties hplain hrest hvalue' fun name schema hschema hmerged => ?_
        exact h schema hmerged (Nat.lt_trans (Json.sizeOf_member_lt (Fields.mem_of_get? hschema)) hsize)
      | array items _ => exact .list rfl (hpart.items rfl)
      | plain value hobject hlist => exact .plain rfl hobject hlist
    · exact hpart

theorem made_composition (hplain : PlainProperties document) {fragments : List Json}
    (hnode : Merged document (.object fields)) (hfragments : fragments? (.object fields) = some fragments)
    (h : ∀ value, Merged document value → sizeOf value < sizeOf (Json.object fields) →
      Made document .schema {value} value) : Made document .schema {.object fields} (.object fields) := by
  have hsum := sum_map_singleton fragments
  have hlayers : ({.object (Fields.erase "allOf" fields)} : Multiset Json) + fragments =
      partsOf (.object fields) fragments := Multiset.singleton_add _ _
  refine .schema {.object (fields.erase "allOf")}
    (fragments.map fun fragment => ({fragment}, fragment)) ?_ ?_ (fun _ => ?_) ?_ ?_ ?_
  · rw [hsum, hlayers]
    exact unfoldsTo_parts hfragments
  · rw [hfragments, List.map_map]
    exact (List.map_id fragments).symm
  · rw [hsum, hlayers]
    exact .inr ⟨_, Multiset.mem_singleton_self _, _, .refl, by rw [hfragments]; rfl,
      fun _ => transGen_of_mem_partsOf hfragments⟩
  · intro part hpart
    obtain ⟨fragment, -, rfl⟩ := List.mem_map.1 hpart
    exact .inr (Multiset.card_singleton fragment)
  · intro part hpart
    obtain ⟨fragment, hfragment, rfl⟩ := List.mem_map.1 hpart
    obtain ⟨_, ⟨⟩, hlist⟩ := fragments?_eq_some.1 hfragments
    exact h fragment (.part hnode hfragments (Multiset.mem_cons_of_mem hfragment))
      (Nat.lt_trans (Json.sizeOf_item_lt hfragment) (Json.sizeOf_member_lt (Fields.mem_of_get? hlist)))
  · have hown : Merged document (.object (fields.erase "allOf")) :=
      .part hnode hfragments (Multiset.mem_cons_self _ _)
    refine made_keywords hplain hown (fun key value hvalue hallOf => ?_) h
    rw [Fields.get?_erase, if_neg]
    · exact hvalue
    · rintro rfl
      rw [hallOf rfl] at hfragments
      cases hfragments

/-- A schema that is merged is made of itself. -/
theorem made_of_merged {node : Json} (hplain : PlainProperties document) (hnode : Merged document node) :
    Made document .schema {node} node := by
  have ih : ∀ value, Merged document value → sizeOf value < sizeOf node → Made document .schema {value} value :=
    fun value hvalue hsize => made_of_merged hplain hvalue
  cases node using Json.partsInduction with
  | object fields _ =>
    cases hfragments : fragments? (.object fields) with
    | none => exact .of_keywords .refl hfragments (made_keywords hplain hnode (fun _ _ hvalue _ => hvalue) ih)
    | some fragments => exact made_composition hplain hnode hfragments ih
  | array items _ => exact .list rfl ((made_plain ih hnode.reached rfl le_rfl).items rfl)
  | plain node hobject hlist => exact .plain rfl hobject hlist
termination_by sizeOf node
decreasing_by exact hsize

/-- A node that is no composition is made of itself. -/
theorem made_of_plain (hplain : PlainProperties document)
    (hnode : ReflTransGen (NodeStep document) document node) (hfragments : fragments? node = none) :
    Made document .part {node} node :=
  made_plain (fun _ hvalue _ => made_of_merged hplain hvalue) hnode hfragments le_rfl

/-! ## Merging -/

/-- What a schema says of a property is made of what its layers say of it. -/
theorem Made.declared (h : Made document .keywords layers (.object fields))
    (hvalue : declaredProperty? fields name = some value) :
    (isDataKeyword name = false → Made document (.property name) layers value) ∧
      (name = "allOf" → value.items? = none) := by
  obtain ⟨properties, hproperties, hname⟩ := declaredProperty?_eq_some.1 hvalue
  have hmade : Made document .properties layers (.object properties) :=
    h.keyword hproperties (by decide) fun heq => absurd heq (by decide)
  cases hmade with
  | plain _ hobject _ => exact absurd rfl (hobject properties)
  | members _ hfragments h =>
    refine ⟨h name value hname, ?_⟩
    rintro rfl
    rw [← fragments?_of_get? hname, hfragments]

theorem items?_mergeSchemas (a b : Json) : (mergeSchemas a b).items? = none := by
  unfold mergeSchemas
  split
  · split
    · rfl
    · split <;> rfl
  · rfl

theorem items?_bothMerged {own more : Option Json} (hown : ∀ a, own = some a → a.items? = none)
    (hmore : ∀ b, more = some b → b.items? = none) (h : bothMerged? own more = some value) :
    value.items? = none := by
  cases own with
  | none => exact hmore value h
  | some a =>
    cases more with
    | none =>
      cases h
      exact hown value rfl
    | some b =>
      cases h
      exact items?_mergeSchemas a b

section

variable {left right merged : Fields} {first second : Multiset Json} {a b : Json}

theorem Made.bothMerged
    (hleft : ∀ a, declaredProperty? left name = some a → Made document (.property name) layers a)
    (hright : ∀ b, declaredProperty? right name = some b → Made document (.property name) others b)
    (hboth : ∀ {a b : Json} {first second : Multiset Json}, declaredProperty? right name = some b →
      Made document .schema first a → Made document .schema second b → first ≠ 0 → second ≠ 0 →
        Made document .schema (first + second) (mergeSchemas a b))
    (h : bothMerged? (declaredProperty? left name) (declaredProperty? right name) = some value) :
    Made document (.property name) (layers + others) value := by
  have hlayers : UnfoldsTo document (layers + others) layers := unfoldsTo_of_le (Multiset.le_add_right _ _)
  have hothers : UnfoldsTo document (layers + others) others := unfoldsTo_of_le (Multiset.le_add_left _ _)
  cases hown : declaredProperty? left name with
  | none =>
    rw [hown] at h
    obtain ⟨hname, collected, hcollects, h⟩ := (hright value h).exists_collected
    exact .property hname (hcollects.of_unfoldsTo hothers) h
  | some a =>
    obtain ⟨hname, first, hfirst, ha⟩ := (hleft a hown).exists_collected
    cases hmore : declaredProperty? right name with
    | none =>
      rw [hown, hmore] at h
      cases h
      exact .property hname (hfirst.of_unfoldsTo hlayers) ha
    | some b =>
      rw [hown, hmore] at h
      cases h
      obtain ⟨-, second, hsecond, hb⟩ := (hright b hmore).exists_collected
      exact .property hname (hfirst.add hsecond) (hboth hmore ha hb hfirst.1 hsecond.1)

/-- Merged keywords are made of the layers of both, if the schemas of shared properties are. -/
theorem Made.merging_keywords_of (hordered : (Json.object right).ordered = true)
    (hleft : Made document .keywords layers (.object left))
    (hright : Made document .keywords others (.object right))
    (hboth : ∀ {name : String} {a b : Json} {first second : Multiset Json},
      declaredProperty? right name = some b → Made document .schema first a → Made document .schema second b →
        first ≠ 0 → second ≠ 0 → Made document .schema (first + second) (mergeSchemas a b))
    (h : mergeFields left right = some merged) :
    Made document .keywords (layers + others) (.object merged) := by
  have hlayers : UnfoldsTo document (layers + others) layers := unfoldsTo_of_le (Multiset.le_add_right _ _)
  have hothers : UnfoldsTo document (layers + others) others := unfoldsTo_of_le (Multiset.le_add_left _ _)
  have hkeys := (Json.ordered_object.1 hordered).1
  refine .keywords (fun reference hreference => ?_) fun key value hvalue hdata hallOf => ?_
  · cases origin_of_mergeFields hkeys h hreference with
    | own hown =>
      obtain ⟨layer, hlayer, href⟩ := hleft.reference hown
      exact ⟨layer, Multiset.mem_add.2 (.inl hlayer), href⟩
    | added hadded =>
      obtain ⟨layer, hlayer, href⟩ := hright.reference hadded
      exact ⟨layer, Multiset.mem_add.2 (.inr hlayer), href⟩
    | required hkey => exact absurd hkey (by decide)
    | properties hkey => exact absurd hkey (by decide)
  · have hkept : ∀ {given : Fields}, given.get? key = some value → key = "allOf" →
        fragments? (.object given) = none := by
      rintro given hgiven rfl
      rw [fragments?_of_get? hgiven, ← fragments?_of_get? hvalue, hallOf rfl]
    cases origin_of_mergeFields hkeys h hvalue with
    | own hown => exact (hleft.keyword hown hdata (hkept hown)).under_mono hlayers
    | added hadded => exact (hright.keyword hadded hdata (hkept hadded)).under_mono hothers
    | @required names more hkey hnames hmore hlist =>
      subst hkey hlist
      have hold : ∀ name ∈ names, Made document .part layers name := by
        cases hown : left.get? "required" with
        | none =>
          rw [hown] at hnames
          cases hnames
          exact List.forall_mem_nil _
        | some held =>
          rw [hown] at hnames
          cases hnames
          exact (hleft.keyword hown (by decide) fun heq => absurd heq (by decide)).items rfl
      have hnew := (hright.keyword hmore (by decide) fun heq => absurd heq (by decide)).items rfl
      refine .list rfl fun name hname => ?_
      rcases mem_mergeRequired hname with hname | hname
      · exact (hold name hname).mono fun _ hbelow => hbelow.of_unfoldsTo hlayers
      · exact (hnew name hname).mono fun _ hbelow => hbelow.of_unfoldsTo hothers
    | @properties given hkey hgiven =>
      subst hkey hgiven
      have hname : ∀ name, given.get? name =
          bothMerged? (declaredProperty? left name) (declaredProperty? right name) := by
        intro name
        rw [← declaredProperty?_mergeFields hordered h, declaredProperty?_of_object hvalue]
      refine .members rfl ?_ fun name value hvalue hdata => ?_
      · refine fragments?_eq_none.2 fun list hlist => ?_
        rw [hname] at hlist
        exact items?_bothMerged (fun a ha => (hleft.declared ha).2 rfl)
          (fun b hb => (hright.declared hb).2 rfl) hlist
      · rw [hname] at hvalue
        exact .bothMerged (fun a ha => (hleft.declared ha).1 hdata) (fun b hb => (hright.declared hb).1 hdata)
          hboth hvalue

theorem two_le_card_add (hfirst : first ≠ 0) (hsecond : second ≠ 0) : 2 ≤ Multiset.card (first + second) := by
  have hone := Multiset.card_pos.2 hfirst
  have htwo := Multiset.card_pos.2 hsecond
  rw [Multiset.card_add]
  omega

/-- A composition of two schemas waits to be merged. -/
theorem made_composed (ha : Made document .schema first a) (hb : Made document .schema second b)
    (hfirst : first ≠ 0) (hsecond : second ≠ 0) : Made document .schema (first + second) (composed a b) := by
  have hparts : (([(first, a), (second, b)] : List (Multiset Json × Json)).map Prod.fst).sum =
      first + second := by
    simp
  refine .schema 0 [(first, a), (second, b)] ?_ rfl (fun _ => .inl (two_le_card_add hfirst hsecond)) ?_ ?_ ?_
  · rw [hparts, Multiset.zero_add]
    exact .refl
  · exact List.forall_mem_cons.2 ⟨.inl (Multiset.le_add_right _ _),
      List.forall_mem_singleton.2 (.inl (Multiset.le_add_left _ _))⟩
  · exact List.forall_mem_cons.2 ⟨ha, List.forall_mem_singleton.2 hb⟩
  · refine .keywords (fun reference hreference => by cases hreference) fun key value hvalue _ hallOf => ?_
    rw [Fields.get?_cons] at hvalue
    split at hvalue
    · rename_i hkey
      cases hallOf hkey.symm
    · cases hvalue

theorem Made.merging_objects (hordered : (Json.object right).ordered = true)
    (ha : Made document .schema first (.object left)) (hb : Made document .schema second (.object right))
    (hfirst : first ≠ 0) (hsecond : second ≠ 0)
    (hboth : ∀ {name : String} {a b : Json} {first second : Multiset Json},
      declaredProperty? right name = some b → Made document .schema first a → Made document .schema second b →
        first ≠ 0 → second ≠ 0 → Made document .schema (first + second) (mergeSchemas a b))
    (h : mergeFields left right = some merged) : Made document .schema (first + second) (.object merged) := by
  have htwo := two_le_card_add hfirst hsecond
  obtain ⟨layers, parts, hunfolds, hfragments, -, hsmall, hparts, hkeywords⟩ := ha.exists_parts
  obtain ⟨others, more, hunfolds', hfragments', -, hsmall', hmore, hkeywords'⟩ := hb.exists_parts
  have hmade := merging_keywords_of hordered hkeywords hkeywords' hboth h
  have hall := hunfolds.add_both hunfolds'
  cases hlist : fragments? (.object merged) with
  | none =>
    refine .of_keywords (hall.trans (unfoldsTo_of_le ?_)) hlist hmade
    exact add_le_add (Multiset.le_add_right _ _) (Multiset.le_add_right _ _)
  | some list =>
    obtain ⟨_, ⟨⟩, hget⟩ := fragments?_eq_some.1 hlist
    cases origin_of_mergeFields (Json.ordered_object.1 hordered).1 h hget with
    | own hown =>
      rw [fragments?_of_get? hown, ← fragments?_of_get? hget] at hfragments
      refine .schema (layers + others) parts (hall.trans (unfoldsTo_of_le ?_)) hfragments (fun _ => .inl htwo)
        (fun part hpart => ?_) hparts hmade
      · rw [add_right_comm]
        exact add_le_add le_rfl (Multiset.le_add_right _ _)
      · exact (hsmall part hpart).imp_left fun hle => hle.trans (Multiset.le_add_right _ _)
    | added hadded =>
      rw [fragments?_of_get? hadded, ← fragments?_of_get? hget] at hfragments'
      refine .schema (layers + others) more (hall.trans (unfoldsTo_of_le ?_)) hfragments' (fun _ => .inl htwo)
        (fun part hpart => ?_) hmore hmade
      · rw [add_assoc]
        exact add_le_add (Multiset.le_add_right _ _) le_rfl
      · exact (hsmall' part hpart).imp_left fun hle => hle.trans (Multiset.le_add_left _ _)
    | required hkey => exact absurd hkey (by decide)
    | properties hkey => exact absurd hkey (by decide)

/-- What two schemas are merged to is made of what both are made of. -/
theorem Made.merging {a b : Json} {first second : Multiset Json} (hordered : b.ordered = true)
    (ha : Made document .schema first a) (hb : Made document .schema second b) (hfirst : first ≠ 0)
    (hsecond : second ≠ 0) : Made document .schema (first + second) (mergeSchemas a b) := by
  induction hsize : sizeOf b using Nat.strong_induction_on generalizing a b first second with
  | _ size ih =>
    subst hsize
    have hcomposed := made_composed ha hb hfirst hsecond
    unfold mergeSchemas
    split
    · split
      · exact hcomposed
      · split
        · rename_i merged hmerged
          refine merging_objects hordered ha hb hfirst hsecond (fun hname ha hb hfirst hsecond => ?_) hmerged
          exact ih _ (sizeOf_declaredProperty?_lt hname) (ordered_of_declaredProperty? hordered hname) ha hb
            hfirst hsecond rfl
        · exact hcomposed
    · exact hcomposed

/-- Merged keywords are made of the layers of both. -/
theorem Made.merging_keywords (hordered : (Json.object right).ordered = true)
    (hleft : Made document .keywords layers (.object left))
    (hright : Made document .keywords others (.object right)) (h : mergeFields left right = some merged) :
    Made document .keywords (layers + others) (.object merged) := by
  refine merging_keywords_of hordered hleft hright (fun hname ha hb => ?_) h
  exact merging (ordered_of_declaredProperty? hordered hname) ha hb

end

end

end ApiContract
