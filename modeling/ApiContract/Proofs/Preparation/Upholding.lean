import ApiContract.Proofs.Preparation.Separable

/-! # Schemas on top of each other

A composition gives an instance several schemas. Where two of them have the same keyword the first one
wins, and what the other one says there is lost; properties, required names and types are those of all.

* `Unfolds`: the layers of a list of schemas, each without references and fragments.
* `won`: the keywords of a layer that no layer before it has.
* `Ranked`: schemas of one property that are merged in the order in which they stand.
* `Respects`, `Upholds`: what the won keywords ask, and what all layers ask together.
* `Upheld`, `upheld_iff`: an instance upholds schemas if it upholds their layers, and so its parts. -/

set_option autoImplicit false

namespace ApiContract

/-! ## Layers -/

def keywordsOf : Json → Fields
  | .object fields => fields
  | _ => []

def withoutFragments : Json → Json
  | .object fields => .object (Fields.erase "allOf" fields)
  | other => other

/-- The schemas that a keyword holds by name are not taken for a composition. -/
def HasClearMaps (keywords : Fields) : Prop :=
  ∀ key ∈ ["properties", "patternProperties", "dependencies"], ∀ entries : Fields,
    keywords.get? key = some (.object entries) → ∀ fragments, entries.get? "allOf" ≠ some (.array fragments)

/-- A list of schemas, taken apart: a reference is its target, and a composition its own keywords before
its fragments. -/
inductive Unfolds (document : Json) : List Json → List Json → Prop where
  | nil : Unfolds document [] []
  | reference {schema target : Json} {reference : String} {rest layers : List Json}
    (href : schema.reference? = some reference) (htarget : document.resolve? reference = some target)
    (h : Unfolds document (target :: rest) layers) : Unfolds document (schema :: rest) layers
  | layer {schema : Json} {rest layers : List Json} (href : schema.reference? = none)
    (hmaps : HasClearMaps (keywordsOf schema))
    (h : Unfolds document (conjuncts (keywordsOf schema) ++ rest) layers) :
    Unfolds document (schema :: rest) (withoutFragments schema :: layers)

/-- The keywords about strings that hold other documents, which are read together. -/
def contentKeywords : List String := ["contentMediaType", "contentEncoding"]

/-- The keywords that are not left to the first layer that has them. -/
def sharedKeywords : List String :=
  ["required", "type", "properties", "additionalProperties", "discriminator"] ++ contentKeywords

/-- The keywords of a layer that stand in no layer before it, apart from the shared ones. -/
def won (before : List Json) (layer : Json) : Fields :=
  (keywordsOf layer).filter fun field =>
    !sharedKeywords.contains field.1 && before.all fun earlier => (earlier.get? field.1).isNone

/-- The schemas that the layers give a property. -/
def declaredBy (layers : List Json) (name : String) : List Json :=
  layers.filterMap fun layer => declaredProperty? (keywordsOf layer) name

/-- No layer has a schema for a property. -/
def Unclaimed (layers : List Json) (name : String) : Prop :=
  ∀ layer ∈ layers, propertySchemas (keywordsOf layer) name = []

/-! ## Schemas of one property -/

/-- A schema that is not merged key by key. -/
def IsApart (schema : Json) : Prop := schema.isObject = false ∨ schema.get? "$ref" ≠ none

/-- What stands under `type`. -/
def IsTyping (value : Json) : Prop :=
  (∃ name, value = .string name) ∨ ∃ names : List String, value = .array (names.map .string)

/-- A schema that nothing in the way of others of its type stands against. -/
structure Fits (typing schema : Json) : Prop where
  typing : ∀ value, schema.get? "type" = some value → value = typing
  required : ∀ value, schema.get? "required" = some value → ∃ names, value = .array names
  properties : ∀ value, schema.get? "properties" = some value → ∃ given, value = .object given

/-- A schema that is merged key by key with all others of its type. -/
structure Stackable (typing schema : Json) : Prop extends Fits typing schema where
  object : schema.isObject = true
  reference : schema.get? "$ref" = none
  fragments : schema.get? "allOf" = none

/-- Schemas of one property whose keywords come in the order of the schemas when they are merged: all but
the last can be merged with each other, or there are two of which one stays apart. Of others the last may
come first, or get lost. -/
inductive Ranked (schemas : List Json) : Prop where
  | stacked (typing : Json) (htyping : IsTyping typing)
    (h : ∀ schema ∈ schemas.dropLast, Stackable typing schema)
  | apart {a b : Json} (hschemas : schemas = [a, b]) (h : IsApart a ∨ IsApart b)

/-! ## What layers ask -/

/-- A schema that flattening does not make stricter, or does not touch. -/
def StaysLax (document schema : Json) : Prop :=
  Mergeable document schema ∨ Uncomposed schema ∧ Steady document schema

/-- What the won keywords of a layer ask, where `up` tells what the instance and its parts uphold. That a
schema is not to accept the instance counts if flattening cannot make that schema stricter. -/
structure Respects (document : Json) (up : List Json → Json → Prop) (keywords : Fields) (inst : Json) :
    Prop where
  asserts : ∀ key value, keywords.get? key = some value → Assertion.Holds key value inst
  any : ∀ value, keywords.get? "anyOf" = some value → ∃ sub ∈ listed value, up [sub] inst
  one : ∀ value, keywords.get? "oneOf" = some value → (∃ sub ∈ listed value, up [sub] inst) ∧
    (listed value).Pairwise fun a b => StaysLax document a → StaysLax document b →
      Evaluation.Accepts document a inst → ¬ Evaluation.Accepts document b inst
  not : ∀ sub, keywords.get? "not" = some sub → StaysLax document sub →
    ¬ Evaluation.Accepts document sub inst
  yes : ∀ test, keywords.get? "if" = some test → ∀ sub, keywords.get? "then" = some sub →
    StaysLax document test → Evaluation.Accepts document test inst → up [sub] inst
  no : ∀ test, keywords.get? "if" = some test → ∀ sub, keywords.get? "else" = some sub →
    Uncomposed test → Steady document test → ¬ Evaluation.Accepts document test inst → up [sub] inst
  patterns : ∀ members, inst = .object members → ∀ name value, (name, value) ∈ members →
    ∀ entry ∈ matchingPatterns keywords name, up [entry.2] value
  names : ∀ members, inst = .object members → ∀ sub, keywords.get? "propertyNames" = some sub →
    isItemSchema sub = true → ∀ name value, (name, value) ∈ members → up [sub] (.string name)
  dependencies : ∀ members : Fields, inst = .object members → ∀ entries,
    keywords.get? "dependencies" = some (.object entries) → ∀ name dependency,
      (name, dependency) ∈ entries → members.hasKey name = true →
        DependencyHolds (fun sub => up [sub] inst) members dependency
  items : ∀ items, inst = .array items → ItemsPass (fun sub => up [sub]) keywords items
  contains : ∀ items, inst = .array items → ∀ sub, keywords.get? "contains" = some sub →
    ∃ item ∈ items, up [sub] item

/-- What layers ask together. `additionalProperties` of a layer is about the properties that no layer has
a schema for, and `false` counts there for a layer on its own only. -/
structure Upholds (document : Json) (up : List Json → Json → Prop) (layers : List Json) (inst : Json) :
    Prop where
  possible : .bool false ∉ layers
  keywords : ∀ before layer after, layers = before ++ layer :: after →
    Respects document up (won before layer) inst
  joined : ∀ layer ∈ layers, ∀ key ∈ ["type", "required"], ∀ value, layer.get? key = some value →
    Assertion.Holds key value inst
  content : ∀ before layer after, layers = before ++ layer :: after →
    (∀ earlier ∈ before, ∀ key ∈ contentKeywords, earlier.get? key = none) →
      (∀ later ∈ after, ∀ key ∈ contentKeywords, layer.get? key = none → later.get? key = none) →
        ∀ key value, layer.get? key = some value → contentFailures (keywordsOf layer) key value inst = []
  properties : ∀ members, inst = .object members → ∀ name value, (name, value) ∈ members →
    Ranked (declaredBy layers name) → up (declaredBy layers name) value
  further : ∀ before layer after, layers = before ++ layer :: after →
    (∀ earlier ∈ before, earlier.get? "additionalProperties" = none) →
      ∀ sub, layer.get? "additionalProperties" = some sub → isItemSchema sub = true →
        (sub = .bool false → before ++ after = []) →
          ∀ members, inst = .object members → ∀ name value, (name, value) ∈ members →
            Unclaimed layers name → up [sub] value

/-- An instance upholds a list of schemas, as far as `depth` schemas inside each other show. -/
def UpheldTo (document : Json) : Nat → List Json → Json → Prop
  | 0, _, _ => True
  | depth + 1, schemas, inst =>
    ∀ layers, Unfolds document schemas layers → Upholds document (UpheldTo document depth) layers inst

/-- An instance upholds a list of schemas. -/
def Upheld (document : Json) (schemas : List Json) (inst : Json) : Prop :=
  ∀ depth, UpheldTo document depth schemas inst

/-! ## Won keywords -/

section

variable {document inst : Json} {up weaker : List Json → Json → Prop} {keywords given : Fields}

theorem get?_filter (keep : String → Bool) (key : String) (fields : Fields) :
    Fields.get? key (fields.filter fun field => keep field.1) =
      if keep key then fields.get? key else none := by
  induction fields with
  | nil => simp
  | cons field rest ih =>
    obtain ⟨name, value⟩ := field
    rw [Fields.get?_cons]
    by_cases hname : name = key
    · subst hname
      cases hkeep : keep name <;> simp [hkeep, ih, Fields.get?_cons]
    · cases hkeep : keep name <;> simp [hkeep, ih, Fields.get?_cons, hname]

theorem get?_eq_keywordsOf (schema : Json) (key : String) :
    schema.get? key = (keywordsOf schema).get? key := by
  cases schema <;> rfl

theorem get?_won {before : List Json} {layer value : Json} {key : String} :
    (won before layer).get? key = some value ↔
      key ∉ sharedKeywords ∧ (∀ earlier ∈ before, earlier.get? key = none) ∧ layer.get? key = some value := by
  unfold won
  rw [get?_filter (fun key => !sharedKeywords.contains key && before.all fun earlier =>
    (earlier.get? key).isNone), get?_eq_keywordsOf]
  split
  · rename_i hkeep
    simp only [Bool.and_eq_true, Bool.not_eq_true', List.contains_eq_mem, decide_eq_false_iff_not,
      List.all_eq_true, Option.isNone_iff_eq_none] at hkeep
    exact ⟨fun hvalue => ⟨hkeep.1, hkeep.2, hvalue⟩, fun h => h.2.2⟩
  · rename_i hkeep
    simp only [Bool.and_eq_true, Bool.not_eq_true', List.contains_eq_mem, decide_eq_false_iff_not,
      List.all_eq_true, Option.isNone_iff_eq_none] at hkeep
    exact ⟨nofun, fun h => absurd ⟨h.1, h.2.1⟩ hkeep⟩

theorem mem_matchingPatterns {name : String} {entry : String × Json} :
    entry ∈ matchingPatterns keywords name ↔ ∃ patterns : Fields,
      keywords.get? "patternProperties" = some (.object patterns) ∧ entry ∈ patterns ∧
        matchesPattern entry.1 name = true := by
  unfold matchingPatterns
  split
  · rename_i patterns hpatterns
    rw [List.mem_filter, hpatterns]
    constructor
    · exact fun h => ⟨patterns, rfl, h⟩
    · rintro ⟨_, heq, h⟩
      cases heq
      exact h
  · rename_i hpatterns
    exact ⟨nofun, fun ⟨patterns, h, _⟩ => absurd h (hpatterns patterns)⟩

theorem itemSchema?_eq_some {place : Nat} {sub : Json} : itemSchema? keywords place = some sub ↔
    (∃ tuple, keywords.get? "items" = some (.array tuple) ∧
      (tuple[place]? = some sub ∨ tuple[place]? = none ∧
        keywords.get? "additionalItems" = some sub ∧ isItemSchema sub = true)) ∨
    keywords.get? "items" = some sub ∧ isItemSchema sub = true := by
  unfold itemSchema?
  split
  · rename_i tuple htuple
    have hitem : ¬ (Json.array tuple = sub ∧ isItemSchema sub = true) := by
      rintro ⟨rfl, hitem⟩
      cases hitem
    rw [htuple, Option.or_eq_some_iff, Option.filter_eq_some_iff, Option.some.injEq,
      or_iff_left hitem]
    constructor
    · exact fun h => ⟨tuple, rfl, h⟩
    · rintro ⟨_, heq, h⟩
      cases heq
      exact h
  · rename_i hitems
    rw [Option.filter_eq_some_iff]
    exact ⟨.inr, fun h => h.elim (fun ⟨tuple, h, _⟩ => absurd h (hitems tuple)) id⟩

theorem mem_matchingPatterns_of_get? {name : String} {entry : String × Json}
    (hpatterns : ∀ value, given.get? "patternProperties" = some value →
      keywords.get? "patternProperties" = some value)
    (h : entry ∈ matchingPatterns given name) : entry ∈ matchingPatterns keywords name := by
  obtain ⟨patterns, hvalue, hpattern⟩ := mem_matchingPatterns.1 h
  exact mem_matchingPatterns.2 ⟨patterns, hpatterns _ hvalue, hpattern⟩

theorem itemSchema?_of_get? {place : Nat} {sub : Json}
    (hitems : ∀ key ∈ ["items", "additionalItems"], ∀ value, given.get? key = some value →
      keywords.get? key = some value)
    (h : itemSchema? given place = some sub) : itemSchema? keywords place = some sub := by
  refine itemSchema?_eq_some.2 ?_
  rcases itemSchema?_eq_some.1 h with ⟨tuple, htuple, hplace | ⟨hnone, hvalue, hschema⟩⟩ | ⟨hvalue, hschema⟩
  · exact .inl ⟨tuple, hitems _ (by decide) _ htuple, .inl hplace⟩
  · exact .inl ⟨tuple, hitems _ (by decide) _ htuple, .inr ⟨hnone, hitems _ (by decide) _ hvalue, hschema⟩⟩
  · exact .inr ⟨hitems _ (by decide) _ hvalue, hschema⟩

/-- Fewer keywords ask less. -/
theorem Respects.imp (hup : ∀ schemas part, up schemas part → weaker schemas part)
    (hfewer : ∀ key value, given.get? key = some value → keywords.get? key = some value)
    (h : Respects document up keywords inst) : Respects document weaker given inst where
  asserts key value hvalue := h.asserts key value (hfewer key value hvalue)
  any value hvalue := by
    obtain ⟨sub, hsub, hupheld⟩ := h.any value (hfewer _ value hvalue)
    exact ⟨sub, hsub, hup _ _ hupheld⟩
  one value hvalue := by
    obtain ⟨⟨sub, hsub, hupheld⟩, hpairwise⟩ := h.one value (hfewer _ value hvalue)
    exact ⟨⟨sub, hsub, hup _ _ hupheld⟩, hpairwise⟩
  not sub hsub := h.not sub (hfewer _ sub hsub)
  yes test htest sub hsub hlax haccepts :=
    hup _ _ (h.yes test (hfewer _ test htest) sub (hfewer _ sub hsub) hlax haccepts)
  no test htest sub hsub huncomposed hsteady haccepts :=
    hup _ _ (h.no test (hfewer _ test htest) sub (hfewer _ sub hsub) huncomposed hsteady haccepts)
  patterns members hmembers name value hmem entry hentry :=
    hup _ _ (h.patterns members hmembers name value hmem entry
      (mem_matchingPatterns_of_get? (hfewer _) hentry))
  names members hmembers sub hsub hschema name value hmem :=
    hup _ _ (h.names members hmembers sub (hfewer _ sub hsub) hschema name value hmem)
  dependencies members hmembers entries hentries name dependency hmem hname :=
    (h.dependencies members hmembers entries (hfewer _ _ hentries) name dependency hmem hname).imp
      (hup _ _)
  items items hitems i item hitem sub hsub :=
    hup _ _ (h.items items hitems i item hitem sub (itemSchema?_of_get? (fun key _ => hfewer key) hsub))
  contains items hitems sub hsub := by
    obtain ⟨item, hitem, hupheld⟩ := h.contains items hitems sub (hfewer _ sub hsub)
    exact ⟨item, hitem, hup _ _ hupheld⟩

end

/-! ## Lists of schemas -/

section

variable {document : Json} {a b layers rest : List Json} {name : String}

theorem unfolds_append {first second : List Json} (ha : Unfolds document a first)
    (hb : Unfolds document b second) : Unfolds document (a ++ b) (first ++ second) := by
  induction ha with
  | nil => exact hb
  | reference href htarget _ ih => exact .reference href htarget ih
  | layer href hmaps _ ih =>
    rw [List.append_assoc] at ih
    exact .layer href hmaps ih

theorem exists_unfolds_of_append (h : Unfolds document (a ++ b) layers) :
    ∃ first second, layers = first ++ second ∧ Unfolds document a first ∧ Unfolds document b second := by
  generalize hschemas : a ++ b = schemas at h
  induction h generalizing a with
  | nil =>
    obtain ⟨rfl, rfl⟩ := List.append_eq_nil_iff.1 hschemas
    exact ⟨[], [], rfl, .nil, .nil⟩
  | reference href htarget hrest ih =>
    rename_i schema target reference rest layers
    cases a with
    | nil =>
      subst hschemas
      exact ⟨[], layers, rfl, .nil, .reference href htarget hrest⟩
    | cons head tail =>
      cases hschemas
      have hall : target :: tail ++ b = target :: (tail ++ b) := rfl
      obtain ⟨first, second, rfl, hfirst, hsecond⟩ := ih hall
      exact ⟨first, second, rfl, .reference href htarget hfirst, hsecond⟩
  | layer href hmaps hrest ih =>
    rename_i schema rest layers
    cases a with
    | nil =>
      subst hschemas
      exact ⟨[], _, rfl, .nil, .layer href hmaps hrest⟩
    | cons head tail =>
      cases hschemas
      obtain ⟨first, second, rfl, hfirst, hsecond⟩ := ih (List.append_assoc ..)
      exact ⟨_, second, rfl, .layer href hmaps hfirst, hsecond⟩

/-- There is a layer for each schema at least. -/
theorem length_le_of_unfolds (h : Unfolds document a layers) : a.length ≤ layers.length := by
  induction h with
  | nil => exact Nat.le_refl 0
  | reference _ _ _ ih => exact ih
  | layer _ _ _ ih =>
    rw [List.length_append] at ih
    simp only [List.length_cons]
    omega

theorem declaredBy_append : declaredBy (a ++ b) name = declaredBy a name ++ declaredBy b name :=
  List.filterMap_append

theorem declaredBy_cons {layer : Json} : declaredBy (layer :: a) name =
    (declaredProperty? (keywordsOf layer) name).toList ++ declaredBy a name := by
  unfold declaredBy
  rw [List.filterMap_cons]
  cases declaredProperty? (keywordsOf layer) name <;> rfl

theorem declaredBy_singleton {layer : Json} :
    declaredBy [layer] name = (declaredProperty? (keywordsOf layer) name).toList := by
  rw [declaredBy_cons, declaredBy, List.filterMap_nil, List.append_nil]

theorem Ranked.left (h : Ranked (a ++ b)) : Ranked a := by
  cases h with
  | stacked typing htyping h =>
    refine .stacked typing htyping fun schema hschema => h schema ?_
    cases b with
    | nil => rwa [List.append_nil]
    | cons head tail =>
      rw [List.dropLast_append_cons]
      exact List.mem_append_left _ (List.dropLast_subset a hschema)
  | apart hschemas hone =>
    rename_i first second
    match a, hschemas with
    | [], _ => exact .stacked (.string "") (.inl ⟨_, rfl⟩) nofun
    | [_], _ => exact .stacked (.string "") (.inl ⟨_, rfl⟩) nofun
    | [_, _], hschemas =>
      simp only [List.cons_append, List.nil_append, List.cons.injEq] at hschemas
      obtain ⟨rfl, rfl, -⟩ := hschemas
      exact .apart rfl hone
    | _ :: _ :: _ :: _, hschemas => simp at hschemas

theorem Ranked.right (h : Ranked (a ++ b)) : Ranked b := by
  cases h with
  | stacked typing htyping h =>
    refine .stacked typing htyping fun schema hschema => h schema ?_
    cases b with
    | nil => cases hschema
    | cons head tail =>
      rw [List.dropLast_append_cons]
      exact List.mem_append_right _ hschema
  | apart hschemas hone =>
    match b, a, hschemas with
    | [], _, _ => exact .stacked (.string "") (.inl ⟨_, rfl⟩) nofun
    | [_], _, _ => exact .stacked (.string "") (.inl ⟨_, rfl⟩) nofun
    | _ :: _ :: _, [], hschemas => exact .apart hschemas hone
    | _ :: _ :: _, _ :: _, hschemas =>
      have hlength := congrArg List.length hschemas
      simp only [List.length_append, List.length_cons, List.length_nil] at hlength
      omega

/-- Where a layer stands in a list that is put together of two. -/
theorem split_append {before after : List Json} {layer : Json} (h : a ++ b = before ++ layer :: after) :
    (∃ middle, a = before ++ layer :: middle ∧ after = middle ++ b) ∨
      ∃ middle, before = a ++ middle ∧ b = middle ++ layer :: after := by
  rcases List.append_eq_append_iff.1 h with ⟨middle, hbefore, hb⟩ | ⟨middle, ha, hafter⟩
  · exact .inr ⟨middle, hbefore, hb⟩
  · cases middle with
    | nil =>
      rw [List.nil_append] at hafter
      rw [List.append_nil] at ha
      exact .inr ⟨[], by rw [ha, List.append_nil], hafter.symm⟩
    | cons head tail =>
      cases hafter
      exact .inl ⟨tail, ha, rfl⟩

end

/-! ## Layers together -/

section

variable {document inst : Json} {up weaker : List Json → Json → Prop} {a b layers : List Json}

theorem won_append_subset {layer : Json} (key : String) (value : Json)
    (h : (won (a ++ b) layer).get? key = some value) : (won b layer).get? key = some value := by
  obtain ⟨hkey, hbefore, hvalue⟩ := get?_won.1 h
  exact get?_won.2 ⟨hkey, fun earlier hearlier => hbefore earlier (List.mem_append_right a hearlier), hvalue⟩

theorem Upholds.imp (hup : ∀ schemas part, up schemas part → weaker schemas part)
    (h : Upholds document up layers inst) : Upholds document weaker layers inst where
  possible := h.possible
  keywords before layer after hlayers :=
    (h.keywords before layer after hlayers).imp hup fun _ _ => id
  joined := h.joined
  content := h.content
  properties members hmembers name value hmem hranked :=
    hup _ _ (h.properties members hmembers name value hmem hranked)
  further before layer after hlayers hfirst sub hsub hschema hclosed members hmembers name value hmem
      hunclaimed :=
    hup _ _ (h.further before layer after hlayers hfirst sub hsub hschema hclosed members hmembers name
      value hmem hunclaimed)

/-- Whoever upholds some layers and others upholds all of them on top of each other. -/
theorem Upholds.append (hup : ∀ first second part, up first part → up second part → up (first ++ second) part)
    (ha : Upholds document up a inst) (hb : Upholds document up b inst) :
    Upholds document up (a ++ b) inst where
  possible hfalse := (List.mem_append.1 hfalse).elim ha.possible hb.possible
  keywords before layer after hlayers := by
    rcases split_append hlayers with ⟨middle, hsplit, -⟩ | ⟨middle, rfl, hsplit⟩
    · exact ha.keywords before layer middle hsplit
    · exact (hb.keywords middle layer after hsplit).imp (fun _ _ => id) won_append_subset
  joined layer hlayer key hkey value hvalue :=
    (List.mem_append.1 hlayer).elim (fun hmem => ha.joined layer hmem key hkey value hvalue)
      fun hmem => hb.joined layer hmem key hkey value hvalue
  content before layer after hlayers hfirst hlater := by
    rcases split_append hlayers with ⟨middle, hsplit, rfl⟩ | ⟨middle, rfl, hsplit⟩
    · exact ha.content before layer middle hsplit hfirst
        fun later hmem => hlater later (List.mem_append_left b hmem)
    · exact hb.content middle layer after hsplit
        (fun earlier hmem => hfirst earlier (List.mem_append_right a hmem)) hlater
  properties members hmembers name value hmem hranked := by
    rw [declaredBy_append] at hranked ⊢
    exact hup _ _ value (ha.properties members hmembers name value hmem hranked.left)
      (hb.properties members hmembers name value hmem hranked.right)
  further before layer after hlayers hfirst sub hsub hschema hclosed members hmembers name value hmem
      hunclaimed := by
    rcases split_append hlayers with ⟨middle, hsplit, rfl⟩ | ⟨middle, rfl, hsplit⟩
    · refine ha.further before layer middle hsplit hfirst sub hsub hschema (fun hfalse => ?_) members
        hmembers name value hmem fun other hother => hunclaimed other (List.mem_append_left b hother)
      have hnone := hclosed hfalse
      rw [← List.append_assoc] at hnone
      exact (List.append_eq_nil_iff.1 hnone).1
    · refine hb.further middle layer after hsplit
        (fun earlier hearlier => hfirst earlier (List.mem_append_right a hearlier)) sub hsub hschema
        (fun hfalse => ?_) members hmembers name value hmem
        fun other hother => hunclaimed other (List.mem_append_right a hother)
      have hnone := hclosed hfalse
      rw [List.append_assoc] at hnone
      exact (List.append_eq_nil_iff.1 hnone).2

end

/-! ## Depths -/

section

variable {document inst : Json} {depth : Nat} {schemas a b : List Json}

theorem UpheldTo.append (ha : UpheldTo document depth a inst) (hb : UpheldTo document depth b inst) :
    UpheldTo document depth (a ++ b) inst := by
  induction depth generalizing a b inst with
  | zero => trivial
  | succ depth ih =>
    intro layers hlayers
    obtain ⟨first, second, rfl, hfirst, hsecond⟩ := exists_unfolds_of_append hlayers
    exact (ha first hfirst).append (fun _ _ _ => ih) (hb second hsecond)

theorem UpheldTo.less (h : UpheldTo document (depth + 1) schemas inst) :
    UpheldTo document depth schemas inst := by
  induction depth generalizing schemas inst with
  | zero => trivial
  | succ depth ih => exact fun layers hlayers => (h layers hlayers).imp fun _ _ => ih

theorem UpheldTo.of_le {less : Nat} (hle : less ≤ depth) (h : UpheldTo document depth schemas inst) :
    UpheldTo document less schemas inst := by
  induction hle with
  | refl => exact h
  | step _ ih => exact ih h.less

/-- If at each depth one of finitely many things holds, then one holds at all depths. -/
theorem exists_forall_depth {p : Nat → Json → Prop} {items : List Json}
    (hless : ∀ depth less item, less ≤ depth → p depth item → p less item)
    (h : ∀ depth, ∃ item ∈ items, p depth item) : ∃ item ∈ items, ∀ depth, p depth item := by
  induction items with
  | nil =>
    obtain ⟨item, hitem, -⟩ := h 0
    cases hitem
  | cons head tail ih =>
    by_cases hhead : ∀ depth, p depth head
    · exact ⟨head, List.mem_cons_self .., hhead⟩
    · obtain ⟨bound, hbound⟩ := Classical.not_forall.1 hhead
      -- the head is out from some depth on, so at every depth it is one of the others
      have htail : ∀ depth, ∃ item ∈ tail, p depth item := by
        intro depth
        obtain ⟨item, hitem, hp⟩ := h (max bound depth)
        rcases List.mem_cons.1 hitem with rfl | hmem
        · exact absurd (hless _ bound item (Nat.le_max_left ..) hp) hbound
        · exact ⟨item, hmem, hless _ depth item (Nat.le_max_right ..) hp⟩
      obtain ⟨item, hmem, hp⟩ := ih htail
      exact ⟨item, List.mem_cons_of_mem _ hmem, hp⟩

theorem respects_of_forall {keywords : Fields}
    (h : ∀ depth, Respects document (UpheldTo document depth) keywords inst) :
    Respects document (Upheld document) keywords inst where
  asserts := (h 0).asserts
  any value hvalue := exists_forall_depth (fun _ _ _ hle => UpheldTo.of_le hle)
    fun depth => (h depth).any value hvalue
  one value hvalue := ⟨exists_forall_depth (fun _ _ _ hle => UpheldTo.of_le hle)
    fun depth => ((h depth).one value hvalue).1, ((h 0).one value hvalue).2⟩
  not := (h 0).not
  yes test htest sub hsub hlax haccepts depth :=
    (h depth).yes test htest sub hsub hlax haccepts
  no test htest sub hsub huncomposed hsteady haccepts depth :=
    (h depth).no test htest sub hsub huncomposed hsteady haccepts
  patterns members hmembers name value hmem entry hentry depth :=
    (h depth).patterns members hmembers name value hmem entry hentry
  names members hmembers sub hsub hschema name value hmem depth :=
    (h depth).names members hmembers sub hsub hschema name value hmem
  dependencies members hmembers entries hentries name dependency hmem hname := by
    have hholds := fun depth =>
      (h depth).dependencies members hmembers entries hentries name dependency hmem hname
    cases dependency with
    | array names => exact hholds 0
    | _ => exact hholds
  items items hitems i item hitem sub hsub depth := (h depth).items items hitems i item hitem sub hsub
  contains items hitems sub hsub := exists_forall_depth (fun _ _ _ hle => UpheldTo.of_le hle)
    fun depth => (h depth).contains items hitems sub hsub

/-- An instance upholds schemas if it upholds their layers, where its parts uphold schemas too. -/
theorem upheld_iff : Upheld document schemas inst ↔
    ∀ layers, Unfolds document schemas layers → Upholds document (Upheld document) layers inst := by
  constructor
  · intro h layers hlayers
    have hall := fun depth => h (depth + 1) layers hlayers
    exact
      { possible := (hall 0).possible
        keywords := fun before layer after hsplit =>
          respects_of_forall fun depth => (hall depth).keywords before layer after hsplit
        joined := (hall 0).joined
        content := (hall 0).content
        properties := fun members hmembers name value hmem hranked depth =>
          (hall depth).properties members hmembers name value hmem hranked
        further := fun before layer after hsplit hfirst sub hsub hschema hclosed members hmembers name
            value hmem hunclaimed depth =>
          (hall depth).further before layer after hsplit hfirst sub hsub hschema hclosed members hmembers
            name value hmem hunclaimed }
  · intro h depth
    cases depth with
    | zero => trivial
    | succ depth => exact fun layers hlayers => (h layers hlayers).imp fun _ _ hall => hall depth

end

end ApiContract
