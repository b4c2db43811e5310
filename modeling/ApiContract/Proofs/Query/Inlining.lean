import ApiContract.Reference
import ApiContract.Proofs.Json.Pointers
import ApiContract.Proofs.Query.Dereferencing

/-! # Runs of inlining

Inlining replaces a reference by what it refers to, and leaves the references that it is replacing. Nothing
else bounds it. It ends, and the references that are left are found in the run.

* `Inlines`: a run, with the list of the references that are being replaced.
* `inlines_iff`: there is one run, and its result is the inlined schema.
* `ExpandsTo`: what stands at a place of the result comes from a node of the document.
* `Keeps`, `Becomes`: a node keeps its reference, or is made one. A node is made one if its key `$ref` has
  a value that is no text before it is inlined, and a text afterwards.
* `inlineSchema_references`: which references are left.
* `becoming_left`: one that leads somewhere and is not being replaced. -/

set_option autoImplicit false

namespace ApiContract

/-! ## Runs -/

/-- The members of an object with the values that are no data replaced. -/
def replaceMembers (outcome : String × Json → Json) (fields : Fields) : Fields :=
  fields.map fun field => (field.1, if isDataKeyword field.1 then field.2 else outcome field)

/-- A schema has been inlined. `around` holds the references that are being replaced. -/
inductive Inlines (document : Json) : List String → Json → Json → Prop where
  | plain {around : List String} {schema : Json} (hobject : schema.fields? = none)
    (hlist : schema.items? = none) : Inlines document around schema schema
  | again {around : List String} {schema : Json} {reference : String}
    (href : schema.reference? = some reference) (haround : reference ∈ around) :
    Inlines document around schema schema
  | dangling {around : List String} {schema : Json} {reference : String}
    (href : schema.reference? = some reference) (hnone : document.resolve? reference = none) :
    Inlines document around schema schema
  | target {around : List String} {schema target result : Json} {reference : String}
    (href : schema.reference? = some reference) (haround : reference ∉ around)
    (htarget : document.resolve? reference = some target)
    (h : Inlines document (reference :: around) target result) : Inlines document around schema result
  | object {around : List String} {fields : Fields} (href : (Json.object fields).reference? = none)
    (outcome : String × Json → Json)
    (h : ∀ field ∈ fields, isDataKeyword field.1 = false →
      Inlines document around field.2 (outcome field)) :
    Inlines document around (.object fields) (.object (replaceMembers outcome fields))
  | array {around : List String} {items : List Json} (outcome : Json → Json)
    (h : ∀ item ∈ items, Inlines document around item (outcome item)) :
    Inlines document around (.array items) (.array (items.map outcome))

section

variable {document schema : Json} {around pool known : List String}

theorem Inlines.unique {first second : Json} (h : Inlines document around schema first)
    (h' : Inlines document around schema second) : first = second := by
  induction h generalizing second with
  | @plain around schema hobject hlist =>
    cases h' with
    | target href =>
      cases schema with
      | object fields => cases hobject
      | _ => cases href
    | object => cases hobject
    | array => cases hlist
    | _ => rfl
  | again href haround =>
    cases h' with
    | target href' haround' =>
      cases href.symm.trans href'
      exact absurd haround haround'
    | object href' => cases href.symm.trans href'
    | array => cases href
    | _ => rfl
  | dangling href hnone =>
    cases h' with
    | target href' _ htarget =>
      cases href.symm.trans href'
      cases hnone.symm.trans htarget
    | object href' => cases href.symm.trans href'
    | array => cases href
    | _ => rfl
  | @target around schema target result reference href haround htarget _ ih =>
    cases h' with
    | plain hobject =>
      cases schema with
      | object fields => cases hobject
      | _ => cases href
    | again href' haround' =>
      cases href.symm.trans href'
      exact absurd haround' haround
    | dangling href' hnone =>
      cases href.symm.trans href'
      cases hnone.symm.trans htarget
    | target href' _ htarget' h' =>
      cases href.symm.trans href'
      cases htarget.symm.trans htarget'
      exact ih h'
    | object href' => cases href.symm.trans href'
    | array => cases href
  | object href outcome _ ih =>
    cases h' with
    | plain hobject => cases hobject
    | again href' => cases href.symm.trans href'
    | dangling href' => cases href.symm.trans href'
    | target href' => cases href.symm.trans href'
    | object _ other h' =>
      refine congrArg Json.object (List.map_congr_left fun field hfield => ?_)
      cases hdata : isDataKeyword field.1 with
      | true => rfl
      | false => simp only [ih field hfield hdata (h' field hfield hdata)]
  | array outcome _ ih =>
    cases h' with
    | plain _ hlist => cases hlist
    | again href => cases href
    | dangling href => cases href
    | target href => cases href
    | array other h' =>
      exact congrArg Json.array (List.map_congr_left fun item hitem => ih item hitem (h' item hitem))

/-- Inlining runs to its end, if the references that it may still replace are those that it is not
replacing. -/
theorem inlines_inlineWith (known pool around : List String) (schema : Json)
    (hdocument : document.allReferences ⊆ known) (hpool : Unfollowed known around pool)
    (hsub : schema.allReferences ⊆ known) :
    Inlines document around schema (inlineWith document pool schema) := by
  cases hschema : schema with
  | object fields =>
    rw [hschema] at hsub
    cases href : (Json.object fields).reference? with
    | none =>
      rw [inlineWith_object href, inlineFields_eq_map]
      refine .object href (fun field => inlineWith document pool field.2) fun field hfield _ => ?_
      have hsmaller : sizeOf field.2 < sizeOf schema := hschema ▸ Json.sizeOf_member_lt hfield
      exact inlines_inlineWith known pool around field.2 hdocument hpool
        (List.Subset.trans (Json.allReferences_subset_of_mem hfield) hsub)
    | some reference =>
      have hknown : reference ∈ known := hsub (Json.reference?_mem_allReferences href)
      by_cases hmem : reference ∈ pool
      · cases htarget : document.resolve? reference with
        | none =>
          have hsame : inlineWith document pool (.object fields) = .object fields := by
            rw [inlineWith, get?_of_reference? href]
            simp only [if_pos hmem, htarget]
          rw [hsame]
          exact .dangling href htarget
        | some target =>
          have hshorter := length_withoutReference_lt hmem
          rw [inlineWith_of_reference href hmem htarget]
          exact .target href ((hpool _ hknown).1 hmem) htarget
            (inlines_inlineWith known (withoutReference reference pool) (reference :: around) target
              hdocument (hpool.follow reference)
              (List.Subset.trans (Json.allReferences_subset_of_resolve? htarget) hdocument))
      · have hsame : inlineWith document pool (.object fields) = .object fields := by
          rw [inlineWith, get?_of_reference? href]
          simp only [if_neg hmem]
        rw [hsame]
        exact .again href (hpool.mem_followed hknown hmem)
  | array items =>
    rw [hschema] at hsub
    rw [inlineWith, inlineItems_eq_map]
    refine .array (inlineWith document pool) fun item hitem => ?_
    have hsmaller : sizeOf item < sizeOf schema := hschema ▸ Json.sizeOf_item_lt hitem
    exact inlines_inlineWith known pool around item hdocument hpool
      (List.Subset.trans (Json.allReferences_subset_of_item hitem) hsub)
  | _ =>
    rw [inlineWith] <;> first | exact .plain rfl rfl | simp
termination_by (pool.length, sizeOf schema)
decreasing_by
  · exact Prod.Lex.right _ hsmaller
  · exact Prod.Lex.right _ hsmaller
  · exact Prod.Lex.left _ _ hshorter

/-- There is one run, and it gives the inlined schema. -/
theorem inlines_iff {result : Json} :
    Inlines document [] schema result ↔ result = inlineSchema document schema := by
  have hrun : Inlines document [] schema (inlineSchema document schema) := by
    refine inlines_inlineWith (document.references ++ schema.references).eraseDups _ [] schema
      (fun reference hmem => ?_) (.refl _) fun reference hmem => ?_
    all_goals
      rw [List.mem_eraseDups, List.mem_append, Json.mem_references, Json.mem_references]
    · exact .inl hmem
    · exact .inr hmem
  constructor
  · exact fun h => h.unique hrun
  · rintro rfl
    exact hrun

end

/-! ## Places of the result -/

/-- What stands at a place of the result comes from a node, below references that are being replaced. -/
inductive ExpandsTo (document : Json) : List String → Json → List String → List String → Json → Prop where
  | here (around : List String) (schema : Json) : ExpandsTo document around schema [] around schema
  | target {around inner steps : List String} {schema target node : Json} {reference : String}
    (href : schema.reference? = some reference) (haround : reference ∉ around)
    (htarget : document.resolve? reference = some target)
    (h : ExpandsTo document (reference :: around) target steps inner node) :
    ExpandsTo document around schema steps inner node
  | member {around inner steps : List String} {fields : Fields} {name : String} {value node : Json}
    (href : (Json.object fields).reference? = none) (hmem : (name, value) ∈ fields)
    (hdata : isDataKeyword name = false) (h : ExpandsTo document around value steps inner node) :
    ExpandsTo document around (.object fields) (name :: steps) inner node
  | item {around inner steps : List String} {items : List Json} {i : Nat} {value node : Json}
    (hitem : items[i]? = some value) (h : ExpandsTo document around value steps inner node) :
    ExpandsTo document around (.array items) (naturalText i :: steps) inner node

/-- The reference of a node is not replaced: it is being replaced already, or it leads nowhere. -/
def Keeps (document : Json) (around : List String) (node : Json) (reference : String) : Prop :=
  node.reference? = some reference ∧ (reference ∈ around ∨ document.resolve? reference = none)

/-- A node without a reference gets one: what it has under `$ref` is inlined to a text. -/
def Becomes (document : Json) (around : List String) (node : Json) (reference : String) : Prop :=
  node.reference? = none ∧ ∃ value, node.get? "$ref" = some value ∧
    Inlines document around value (.string reference)

/-- A place of the result lies behind a node that keeps its reference, in another member of it. -/
def BehindKept (document : Json) (around : List String) (schema : Json) (steps : List String) : Prop :=
  ∃ front rest inner node kept, steps = front ++ rest ∧ rest ≠ [] ∧
    ExpandsTo document around schema front inner node ∧ Keeps document inner node kept

/-- A reference stands at a place of the result because a node keeps it or becomes one, or the place lies
behind a kept one. -/
def LeftAt (document : Json) (around : List String) (schema : Json) (steps : List String)
    (reference : String) : Prop :=
  BehindKept document around schema steps ∨ ∃ inner node, ExpandsTo document around schema steps inner node ∧
    (Keeps document inner node reference ∨ Becomes document inner node reference)

section

variable {document schema sub result node part : Json} {around inner steps : List String} {reference : String}

theorem LeftAt.within {below : List String} (extra : List String)
    (h : LeftAt document below sub steps reference)
    (hstep : ∀ {front inner node}, ExpandsTo document below sub front inner node →
      ExpandsTo document around schema (extra ++ front) inner node) :
    LeftAt document around schema (extra ++ steps) reference := by
  rcases h with ⟨front, rest, inner, node, kept, rfl, hrest, hnode, hkeeps⟩ | ⟨inner, node, hnode, hleft⟩
  · exact .inl ⟨extra ++ front, rest, inner, node, kept, (List.append_assoc ..).symm, hrest, hstep hnode,
      hkeeps⟩
  · exact .inr ⟨inner, node, hstep hnode, hleft⟩

/-- A schema that keeps its reference stays as it is. -/
theorem LeftAt.of_keeps {kept : String} (h : Keeps document around schema kept)
    (hleads : schema.Leads steps part) (href : part.reference? = some reference) :
    LeftAt document around schema steps reference := by
  cases hsteps : steps with
  | nil =>
    rw [hsteps] at hleads
    cases hleads
    cases h.1.symm.trans href
    exact .inr ⟨around, schema, .here around schema, .inl h⟩
  | cons step rest =>
    exact .inl ⟨[], step :: rest, around, schema, kept, rfl, List.cons_ne_nil _ _, .here around schema, h⟩

theorem get?_replaceMembers (outcome : String × Json → Json) (fields : Fields) (key : String) :
    (replaceMembers outcome fields).get? key = (fields.get? key).map fun value =>
      if isDataKeyword key then value else outcome (key, value) :=
  Fields.get?_map fun key value => if isDataKeyword key then value else outcome (key, value)

/-- An object with a reference in the result had none, or is one that became one. -/
theorem becomes_of_replaceMembers {fields : Fields} {outcome : String × Json → Json}
    (hown : (Json.object fields).reference? = none)
    (h : ∀ field ∈ fields, isDataKeyword field.1 = false →
      Inlines document around field.2 (outcome field))
    (href : (Json.object (replaceMembers outcome fields)).reference? = some reference) :
    Becomes document around (.object fields) reference := by
  have hget := get?_of_reference? href
  rw [get?_replaceMembers] at hget
  obtain ⟨value, hvalue, hresult⟩ := Option.map_eq_some_iff.1 hget
  have hname : isDataKeyword "$ref" = false := by decide
  have hinlined := h ("$ref", value) (Fields.mem_of_get? hvalue) hname
  rw [if_neg (Bool.eq_false_iff.1 hname)] at hresult
  rw [hresult] at hinlined
  exact ⟨hown, value, hvalue, hinlined⟩

/-- Each reference that stands in the result is accounted for, by induction on the run. -/
theorem Inlines.leftAt (h : Inlines document around schema result) (hleads : result.Leads steps part)
    (hdata : ∀ step ∈ steps, isDataKeyword step = false) (href : part.reference? = some reference) :
    LeftAt document around schema steps reference := by
  induction h generalizing steps with
  | plain hobject hlist =>
    cases hleads with
    | here =>
      cases part with
      | object fields => cases hobject
      | _ => cases href
    | member => cases hobject
    | item => cases hlist
  | again hown haround => exact .of_keeps ⟨hown, .inl haround⟩ hleads href
  | dangling hown hnone => exact .of_keeps ⟨hown, .inr hnone⟩ hleads href
  | target hown haround htarget _ ih =>
    exact (ih hleads hdata).within [] fun hnode => .target hown haround htarget hnode
  | object hown outcome h ih =>
    cases hleads with
    | here =>
      exact .inr ⟨_, _, .here _ _, .inr (becomes_of_replaceMembers hown h href)⟩
    | member hmem hrest =>
      obtain ⟨⟨name, value⟩, hfield, hsame⟩ := List.mem_map.1 hmem
      cases hsame
      have hname := hdata name (List.mem_cons_self ..)
      rw [hname] at hrest
      exact (ih (name, value) hfield hname hrest fun step hstep => hdata step
        (List.mem_cons_of_mem _ hstep)).within
        [name] fun hnode => .member hown hfield hname hnode
  | array outcome h ih =>
    cases hleads with
    | here => cases href
    | item hitem hrest =>
      obtain ⟨item, hown, rfl⟩ := Option.map_eq_some_iff.1 (List.getElem?_map .. ▸ hitem)
      exact (ih item (List.mem_of_getElem? hown) hrest
        fun step hstep => hdata step (List.mem_cons_of_mem _ hstep)).within
          [_] fun hnode => .item hown hnode

/-- What a node is inlined to stands at its place in the result. -/
theorem ExpandsTo.stands (h : ExpandsTo document around schema steps inner node)
    (hresult : Inlines document around schema result) :
    ∃ part, result.Leads steps part ∧ Inlines document inner node part := by
  induction h generalizing result with
  | here => exact ⟨result, .here result, hresult⟩
  | @target around inner steps schema target node reference href haround htarget _ ih =>
    cases hresult with
    | plain hobject =>
      cases schema with
      | object fields => cases hobject
      | _ => cases href
    | again href' haround' =>
      cases href.symm.trans href'
      exact absurd haround' haround
    | dangling href' hnone =>
      cases href.symm.trans href'
      cases hnone.symm.trans htarget
    | target href' _ htarget' h' =>
      cases href.symm.trans href'
      cases htarget.symm.trans htarget'
      exact ih h'
    | object href' => cases href.symm.trans href'
    | array => cases href
  | @member around inner steps fields name value node href hmem hdata _ ih =>
    cases hresult with
    | plain hobject => cases hobject
    | again href' => cases href.symm.trans href'
    | dangling href' => cases href.symm.trans href'
    | target href' => cases href.symm.trans href'
    | object _ outcome h' =>
      obtain ⟨part, hleads, hpart⟩ := ih (h' (name, value) hmem hdata)
      refine ⟨part, .member (List.mem_map.2 ⟨(name, value), hmem, ?_⟩) hleads, hpart⟩
      simp only [hdata, Bool.false_eq_true, if_false]
  | item hitem _ ih =>
    cases hresult with
    | plain _ hlist => cases hlist
    | again href => cases href
    | dangling href => cases href
    | target href => cases href
    | array outcome h' =>
      obtain ⟨part, hleads, hpart⟩ := ih (h' _ (List.mem_of_getElem? hitem))
      exact ⟨part, .item (by rw [List.getElem?_map, hitem, Option.map_some]) hleads, hpart⟩

/-- A node that becomes a reference is inlined to one. -/
theorem Becomes.reference?_eq (h : Becomes document around node reference)
    (hpart : Inlines document around node part) : part.reference? = some reference := by
  obtain ⟨hnone, value, hvalue, htext⟩ := h
  cases hpart with
  | plain hobject =>
    cases node with
    | object fields => cases hobject
    | _ => cases hvalue
  | again href => cases hnone.symm.trans href
  | dangling href => cases hnone.symm.trans href
  | target href => cases hnone.symm.trans href
  | @object _ fields _ outcome h =>
    have hname : isDataKeyword "$ref" = false := by decide
    have hmade := (h ("$ref", value) (Fields.mem_of_get? hvalue) hname).unique htext
    have hget : fields.get? "$ref" = some value := hvalue
    rw [Json.reference?, Json.getString?, Json.get?, get?_replaceMembers, hget, Option.map_some,
      if_neg (Bool.eq_false_iff.1 hname), hmade]
    rfl
  | array => cases hvalue

end

/-! ## The references that are left -/

/-- Every reference in the result, outside of data and of what stands behind kept references, leads nowhere
or is being replaced around its place. -/
def LeavesOnlyCycles (document schema : Json) : Prop :=
  ∀ steps part reference, (inlineSchema document schema).Leads steps part →
    (∀ step ∈ steps, isDataKeyword step = false) → part.reference? = some reference →
    BehindKept document [] schema steps ∨ ∃ inner node, ExpandsTo document [] schema steps inner node ∧
      (reference ∈ inner ∨ document.resolve? reference = none)

/-- Inlining ends, with one result. A reference that is left was kept, because it leads nowhere or is being
replaced around its place, or it stands behind a kept one, or a node became one; and every node that becomes
a reference leaves it. -/
theorem inlineSchema_references (document schema : Json) :
    (∀ result, Inlines document [] schema result ↔ result = inlineSchema document schema) ∧
    (∀ steps part reference, (inlineSchema document schema).Leads steps part →
      (∀ step ∈ steps, isDataKeyword step = false) → part.reference? = some reference →
        LeftAt document [] schema steps reference) ∧
    (∀ steps inner node reference, ExpandsTo document [] schema steps inner node →
      Becomes document inner node reference →
        ∃ part, (inlineSchema document schema).Leads steps part ∧ part.reference? = some reference) ∧
    ((∀ steps inner node reference, ExpandsTo document [] schema steps inner node →
      Becomes document inner node reference → reference ∈ inner ∨ document.resolve? reference = none) →
        LeavesOnlyCycles document schema) := by
  have hrun : Inlines document [] schema (inlineSchema document schema) := inlines_iff.2 rfl
  have hleft : ∀ steps part reference, (inlineSchema document schema).Leads steps part →
      (∀ step ∈ steps, isDataKeyword step = false) → part.reference? = some reference →
        LeftAt document [] schema steps reference :=
    fun steps part reference hleads hdata href => hrun.leftAt hleads hdata href
  refine ⟨fun result => inlines_iff, hleft, ?_, ?_⟩
  · intro steps inner node reference hnode hbecomes
    obtain ⟨part, hleads, hpart⟩ := hnode.stands hrun
    exact ⟨part, hleads, hbecomes.reference?_eq hpart⟩
  · intro hbecoming steps part reference hleads hdata href
    rcases hleft steps part reference hleads hdata href with hbehind | ⟨inner, node, hnode, hkeeps | hbecomes⟩
    · exact .inl hbehind
    · exact .inr ⟨inner, node, hnode, hkeeps.2⟩
    · exact .inr ⟨inner, node, hnode, hbecoming steps inner node reference hnode hbecomes⟩

/-- A list of lists, and so on. -/
def nestedLists : Json :=
  .object [("List", .object [("items", .object [("$ref", .string "#/List")])])]

theorem nestedLists_references :
    LeftAt nestedLists [] (.object [("$ref", .string "#/List")]) ["items"] "#/List" := by
  have hspec := inlineSchema_references nestedLists (.object [("$ref", .string "#/List")])
  have hrun : Inlines nestedLists [] (.object [("$ref", .string "#/List")])
      (.object [("items", .object [("$ref", .string "#/List")])]) := by
    refine .target rfl List.not_mem_nil rfl (.object rfl Prod.snd fun field hfield _ => ?_)
    cases List.mem_singleton.1 hfield
    exact .again rfl (List.mem_singleton_self _)
  refine hspec.2.1 ["items"] (.object [("$ref", .string "#/List")]) "#/List" ?_ (by decide) rfl
  rw [← (hspec.1 _).1 hrun]
  exact .member (List.mem_singleton_self _) (.here _)

/-- A reference to a text. -/
def quotingDocument : Json :=
  .object [("a", .string "#/b"), ("b", .object [("type", .string "integer")])]

/-- A schema with this reference where a text stands in others. -/
def quotingSchema : Json := .object [("$ref", .object [("$ref", .string "#/a")])]

/-- The text becomes a reference that leads somewhere, and nothing is being replaced around it. -/
theorem becoming_left : ¬ LeavesOnlyCycles quotingDocument quotingSchema := by
  intro h
  have htext : Inlines quotingDocument [] (.object [("$ref", .string "#/a")]) (.string "#/b") :=
    .target rfl List.not_mem_nil rfl (.plain rfl rfl)
  have hrun : Inlines quotingDocument [] quotingSchema (.object [("$ref", .string "#/b")]) := by
    refine .object rfl (fun _ => .string "#/b") fun field hfield _ => ?_
    cases List.mem_singleton.1 hfield
    exact htext
  have hresult := inlines_iff.1 hrun
  have hleads : (inlineSchema quotingDocument quotingSchema).Leads [] (.object [("$ref", .string "#/b")]) := by
    rw [← hresult]
    exact .here _
  rcases h [] _ "#/b" hleads (List.forall_mem_nil _) rfl with
    ⟨front, rest, -, -, -, hsteps, hrest, -⟩ | ⟨inner, node, hnode, hcycle | hnone⟩
  · exact hrest (List.append_eq_nil_iff.1 hsteps.symm).2
  · cases hnode with
    | here => cases hcycle
    | target href => cases href
  · cases hnone

end ApiContract
