import ApiContract.Proofs.Definition.Records
import ApiContract.Proofs.Route.Leniency
import ApiContract.Reference

/-! # Components as they stand in the document

Components are read once, bucket by bucket, and references look them up by name. What a reference finds is
what its entry in the document reads as, one step and no further.

* `readThrough`: a reference followed in the document itself.
* `Components.AreOf`: the components of a document, however they were read.
* `Table.get?_filterMap`: looking up in a table that holds the entries that could be read.
* `lookup_eq_readThrough`: both lookups agree, for all three kinds of components. -/

set_option autoImplicit false

namespace ApiContract

/-! ## One step in the document -/

/-- The entry of a bucket under a name, as it stands in a document. -/
def rawComponent? (document : Json) (bucket : Bucket) (name : String) : Option Json :=
  ((document.get? "components").bind (·.get? bucket.name)).bind (·.get? name)

/-- The name that a reference into a bucket gives. -/
def nameIn? (bucket : Bucket) (reference : String) : Option String :=
  match pointerSteps? reference with
  | some ["components", given, name] => if given = bucket.name ∧ name ≠ "" then some name else none
  | _ => none

/-- What an entry that a reference leads to stands for. -/
def readEntry {α : Type} (decode : Json → Decoded α) (reference : String) (entry : Json) :
    Except ContractError α :=
  match entry.getString? "$ref" with
  | some nested => .error (.nestedReference nested)
  | none =>
    match decode entry with
    | .ok item => .ok item
    | .error _ => .error (.invalidDefinition reference (DecodeError.noVariant "RefOr").message)

/-- The item that a reference into a bucket names, read in the document. -/
def readThrough {α : Type} (bucket : Bucket) (decode : Json → Decoded α) (document : Json)
    (reference : String) : Except ContractError α :=
  match nameIn? bucket reference with
  | none => .error (.unfollowableReference reference)
  | some name =>
    match rawComponent? document bucket name with
    | none => .error (.missingReference reference)
    | some entry => readEntry decode reference entry

/-- The components of a document: those of the document read as a whole, or its components read alone. -/
inductive Components.AreOf (document : Json) : Option Components → Prop where
  | whole {read : Document} (h : decodeDocument document = .ok read) : AreOf document read.components
  | alone : AreOf document ((document.get? "components").map Components.ofJson)

/-! ## Names -/

theorem Bucket.ofName?_eq_some_iff {name : String} {bucket : Bucket} :
    Bucket.ofName? name = some bucket ↔ name = bucket.name := by
  constructor
  · intro h
    have hname := List.find?_some (p := fun bucket : Bucket => bucket.name == name) h
    exact (eq_of_beq hname).symm
  · rintro rfl
    cases bucket <;> rfl

/-- Names of entries under different buckets are different. -/
theorem Bucket.joined_inj {bucket other : Bucket} {name given : String}
    (h : bucket.name ++ "/" ++ name = other.name ++ "/" ++ given) : bucket = other ∧ name = given := by
  have hchars := congrArg String.toList h
  cases bucket <;> cases other <;>
    simp [Bucket.name, String.toList_append, String.toList_inj] at hchars ⊢
  all_goals exact hchars

section

variable {bucket : Bucket} {reference name : String}

/-- A reference that is not into a bucket gives no name. -/
theorem nameIn?_eq_none
    (h : ∀ given named, pointerSteps? reference ≠ some ["components", given, named]) :
    nameIn? bucket reference = none := by
  unfold nameIn?
  split
  · rename_i given named heq
    exact absurd heq (h given named)
  · rfl

theorem parseComponentReference?_eq_none
    (h : ∀ given named, pointerSteps? reference ≠ some ["components", given, named]) :
    parseComponentReference? reference = none := by
  unfold parseComponentReference?
  split
  · rename_i given named heq
    exact absurd heq (h given named)
  · rfl

theorem nameIn?_eq_some_iff :
    nameIn? bucket reference = some name ↔ parseComponentReference? reference = some (bucket, name) := by
  by_cases hshape : ∃ given named, pointerSteps? reference = some ["components", given, named]
  · obtain ⟨given, named, hsteps⟩ := hshape
    unfold nameIn? parseComponentReference?
    rw [hsteps]
    by_cases hempty : named = ""
    · simp [hempty]
    · simp only [hempty, ne_eq, not_false_eq_true, and_true, String.isEmpty_iff, if_false,
        Option.map_eq_some_iff, Prod.mk.injEq, Bucket.ofName?_eq_some_iff]
      by_cases hgiven : given = bucket.name <;> simp [hgiven]
  · have hother : ∀ given named, pointerSteps? reference ≠ some ["components", given, named] :=
      fun given named hsteps => hshape ⟨given, named, hsteps⟩
    rw [nameIn?_eq_none hother, parseComponentReference?_eq_none hother]
    simp

end

/-! ## Tables of entries -/

namespace Table

variable {α : Type}

theorem get?_append (table others : Table α) (name : String) :
    Table.get? (table ++ others) name = (table.get? name).or (others.get? name) := by
  rw [Table.get?, Table.get?, Table.get?, List.find?_append]
  cases table.find? (·.1 == name) <;> rfl

theorem get?_eq_none {table : Table α} {name : String} (h : ∀ entry ∈ table, entry.1 ≠ name) :
    table.get? name = none := by
  rw [Table.get?, List.find?_eq_none.2 fun entry hentry => by simpa using h entry hentry]
  rfl

/-- A table of what could be read, under names made of those of the entries. -/
theorem get?_filterMap {entries : Fields} {g : String × Json → Option (String × α)}
    (rename : String → String) (read : Json → Option α) (hordered : entries.Ordered)
    (hrename : Function.Injective rename)
    (hg : ∀ entry, g entry = (read entry.2).map fun item => (rename entry.1, item)) (name : String) :
    Table.get? (entries.filterMap g) (rename name) = (entries.get? name).bind read := by
  induction entries with
  | nil => rfl
  | cons entry rest ih =>
    obtain ⟨key, value⟩ := entry
    obtain ⟨-, hrest⟩ := Fields.ordered_cons.1 hordered
    rw [Fields.get?_cons, List.filterMap_cons, hg]
    by_cases hkey : key = name
    · subst hkey
      have habsent := Fields.get?_rest_eq_none hordered
      rw [if_pos rfl, Option.bind_some]
      cases hread : read value with
      | none =>
        rw [Option.map_none, ih hrest, habsent]
        rfl
      | some item => simp [Table.get?]
    · have hne : rename key ≠ rename name := fun heq => hkey (hrename heq)
      rw [if_neg hkey, ← ih hrest]
      cases read value with
      | none => rfl
      | some item => simp [Table.get?, hne]

end Table

/-! ## Buckets -/

/-- The entries that could be read of a bucket, and the reasons for the others. -/
structure IsBucket {α : Type} (bucket : Bucket) (decode : Json → Decoded α)
    (entries : Components → Table (OrReference α)) : Prop where
  entries : ∀ raw, entries (.ofJson raw) = (readBucket bucket.name decode raw).1
  invalid : ∀ raw name, (Components.ofJson raw).invalid.get? (bucket.name ++ "/" ++ name) =
    (readBucket bucket.name decode raw).2.get? (bucket.name ++ "/" ++ name)

/-- The reason why an entry cannot be read. -/
def failure? {α : Type} (decode : Json → Decoded α) (entry : Json) : Option String :=
  match decodeOrReference decode entry with
  | .ok _ => none
  | .error e => some e.message

section

variable {α : Type} {bucket : Bucket} {decode : Json → Decoded α}
  {entries : Components → Table (OrReference α)} {raw : Json}

theorem get?_readBucket (hordered : raw.ordered = true) (name : String) :
    (readBucket bucket.name decode raw).1.get? name =
      ((raw.get? bucket.name).bind (·.get? name)).bind fun entry =>
        (decodeOrReference decode entry).toOption := by
  unfold readBucket
  cases hheld : raw.get? bucket.name with
  | none => rfl
  | some held =>
    cases held with
    | object fields =>
      have hfields := (Json.ordered_object.1 (Json.ordered_of_get? hordered hheld)).1
      change Table.get? (fields.filterMap _) (id name) = (Fields.get? name fields).bind _
      exact Table.get?_filterMap id (fun entry => (decodeOrReference decode entry).toOption) hfields
        Function.injective_id (fun _ => rfl) name
    | _ => rfl

theorem get?_readBucket_invalid (hordered : raw.ordered = true) (name : String) :
    (readBucket bucket.name decode raw).2.get? (bucket.name ++ "/" ++ name) =
      ((raw.get? bucket.name).bind (·.get? name)).bind (failure? decode) := by
  unfold readBucket
  cases hheld : raw.get? bucket.name with
  | none => rfl
  | some held =>
    cases held with
    | object fields =>
      have hfields := (Json.ordered_object.1 (Json.ordered_of_get? hordered hheld)).1
      change Table.get? (fields.filterMap _) _ = (Fields.get? name fields).bind _
      refine Table.get?_filterMap (fun name => bucket.name ++ "/" ++ name) _ hfields ?_ ?_ name
      · exact fun name given h => (Bucket.joined_inj h).2
      · intro entry
        unfold failure?
        cases decodeOrReference decode entry.2 <;> rfl
    | _ => rfl

/-- The reasons of another bucket stand under other names. -/
theorem get?_readBucket_other {β : Type} {given : Json → Decoded β} (other : Bucket)
    (hne : other ≠ bucket) (name : String) :
    (readBucket other.name given raw).2.get? (bucket.name ++ "/" ++ name) = none := by
  refine Table.get?_eq_none fun entry hentry hname => ?_
  unfold readBucket at hentry
  split at hentry
  · obtain ⟨field, -, hfield⟩ := List.mem_filterMap.1 hentry
    split at hfield
    · cases hfield
    · cases hfield
      exact hne (Bucket.joined_inj hname).1
  · cases hentry

end

theorem get?_invalid (raw : Json) (key : String) : (Components.ofJson raw).invalid.get? key =
    (((readBucket Bucket.parameters.name decodeParameter raw).2.get? key).or
      ((readBucket Bucket.requestBodies.name decodeRequestBody raw).2.get? key)).or
        ((readBucket Bucket.responses.name decodeResponse raw).2.get? key) := by
  rw [← Table.get?_append, ← Table.get?_append]
  rfl

theorem isBucket_requestBodies : IsBucket .requestBodies decodeRequestBody Components.requestBodies where
  entries _ := rfl
  invalid raw name := by
    rw [get?_invalid, get?_readBucket_other .parameters (by decide),
      get?_readBucket_other .responses (by decide), Option.none_or, Option.or_none]

theorem isBucket_responses : IsBucket .responses decodeResponse Components.responses where
  entries _ := rfl
  invalid raw name := by
    rw [get?_invalid, get?_readBucket_other .parameters (by decide),
      get?_readBucket_other .requestBodies (by decide), Option.none_or, Option.none_or]

theorem isBucket_parameters : IsBucket .parameters decodeParameter Components.parameters where
  entries _ := rfl
  invalid raw name := by
    rw [get?_invalid, get?_readBucket_other .requestBodies (by decide),
      get?_readBucket_other .responses (by decide), Option.or_none, Option.or_none]

/-! ## Lookup -/

section

variable {α : Type} {bucket : Bucket} {decode : Json → Decoded α}
  {entries : Components → Table (OrReference α)} {document : Json}

theorem lookupIn_eq (components : Option Components) (reference : String) :
    lookupIn bucket entries components reference =
      match nameIn? bucket reference with
      | none => .error (.unfollowableReference reference)
      | some name =>
        match components with
        | none => .error (.missingReference reference)
        | some given =>
          match (entries given).get? name with
          | some entry => takeItem entry
          | none =>
            match given.invalid.get? (bucket.name ++ "/" ++ name) with
            | some reason => .error (.invalidDefinition reference reason)
            | none => .error (.missingReference reference) := by
  rw [lookupIn]
  cases hparse : parseComponentReference? reference with
  | none =>
    have hname : nameIn? bucket reference = none := by
      rw [Option.eq_none_iff_forall_ne_some]
      intro name hname
      rw [nameIn?_eq_some_iff, hparse] at hname
      cases hname
    rw [hname]
  | some parsed =>
    obtain ⟨named, name⟩ := parsed
    by_cases hbucket : named = bucket
    · subst hbucket
      rw [nameIn?_eq_some_iff.2 hparse]
      refine (if_neg (not_not_intro rfl)).trans ?_
      cases components <;> rfl
    · have hname : nameIn? bucket reference = none := by
        rw [Option.eq_none_iff_forall_ne_some]
        intro other hother
        rw [nameIn?_eq_some_iff, hparse, Option.some.injEq, Prod.mk.injEq] at hother
        exact hbucket hother.1
      rw [hname]
      simp [hbucket]

/-- What is kept of an entry is what it reads as. -/
theorem readEntry_eq (reference : String) (entry : Json) : readEntry decode reference entry =
    match (decodeOrReference decode entry).toOption with
    | some item => takeItem item
    | none =>
      match failure? decode entry with
      | some reason => .error (.invalidDefinition reference reason)
      | none => .error (.missingReference reference) := by
  unfold readEntry failure? decodeOrReference
  cases entry.getString? "$ref" with
  | some nested => rfl
  | none => cases decode entry <;> rfl

theorem lookupIn_ofJson {raw : Json} (h : IsBucket bucket decode entries) (hordered : raw.ordered = true)
    (hraw : document.get? "components" = some raw) (reference : String) :
    lookupIn bucket entries (some (.ofJson raw)) reference =
      readThrough bucket decode document reference := by
  rw [lookupIn_eq, readThrough]
  cases nameIn? bucket reference with
  | none => rfl
  | some name =>
    have hentry : rawComponent? document bucket name = (raw.get? bucket.name).bind (·.get? name) := by
      rw [rawComponent?, hraw]
      rfl
    simp only [h.entries, h.invalid, get?_readBucket hordered, get?_readBucket_invalid hordered, hentry]
    cases (raw.get? bucket.name).bind (·.get? name) with
    | none => rfl
    | some entry =>
      simp only [Option.bind_some, readEntry_eq]

theorem lookupIn_none (h : ∀ name, rawComponent? document bucket name = none) (reference : String) :
    lookupIn bucket entries none reference = readThrough bucket decode document reference := by
  rw [lookupIn_eq, readThrough]
  cases nameIn? bucket reference with
  | none => rfl
  | some name => simp only [h]

end

/-! ## Documents -/

section

variable {fields : Fields} {read : Document}

/-- The components of a document that is read are those under its key; null is none. -/
theorem components_of_decodeDocument (hordered : fields.Ordered)
    (h : decodeDocument (.object fields) = .ok read) :
    read.components = none ∧ ((Json.object fields).get? "components" = none ∨
        (Json.object fields).get? "components" = some .null) ∨
      ∃ raw, (Json.object fields).get? "components" = some raw ∧ read.components = some (.ofJson raw) := by
  have hview := @view_of_decodeNamed _ _ _ _ _ "components" _ Document.components _ rfl ?_ hordered
    (decodeNamed_of_decodeRecord h)
  · rcases hview with ⟨hnone, hstart⟩ | ⟨raw, a, b, hraw, hstore, hview⟩
    · exact .inl ⟨hstart, .inl hnone⟩
    · obtain ⟨components, hcomponents, rfl⟩ := Field.exists_of_defaulted hstore
      rw [hview]
      cases raw with
      | null =>
        cases hcomponents
        exact .inl ⟨rfl, .inr hraw⟩
      | _ =>
        cases hcomponents
        exact .inr ⟨_, hraw, rfl⟩
  · intro other hother hname value a b hstore
    simp only [List.mem_cons, List.not_mem_nil, or_false] at hother
    rcases hother with rfl | rfl | rfl
    · obtain ⟨version, -, rfl⟩ := Field.exists_of_defaulted hstore
      rfl
    · obtain ⟨paths, -, rfl⟩ := Field.exists_of_defaulted hstore
      rfl
    · exact absurd rfl hname

theorem rawComponent?_of_null {document : Json} {bucket : Bucket} {name : String}
    (h : document.get? "components" = none ∨ document.get? "components" = some .null) :
    rawComponent? document bucket name = none := by
  rw [rawComponent?]
  rcases h with h | h <;> rw [h] <;> rfl

theorem lookupIn_eq_readThrough {α : Type} {bucket : Bucket} {decode : Json → Decoded α}
    {entries : Components → Table (OrReference α)} {components : Option Components}
    (h : IsBucket bucket decode entries) (hordered : (Json.object fields).ordered = true)
    (hcomponents : Components.AreOf (.object fields) components) (reference : String) :
    lookupIn bucket entries components reference =
      readThrough bucket decode (.object fields) reference := by
  have hraw : ∀ raw, (Json.object fields).get? "components" = some raw →
      lookupIn bucket entries (some (.ofJson raw)) reference =
        readThrough bucket decode (.object fields) reference :=
    fun raw hraw => lookupIn_ofJson h (Json.ordered_of_get? hordered hraw) hraw reference
  cases hcomponents with
  | whole hread =>
    rcases components_of_decodeDocument (Json.ordered_object.1 hordered).1 hread with
      ⟨hnone, habsent⟩ | ⟨raw, hheld, hsome⟩
    · rw [hnone]
      exact lookupIn_none (fun _ => rawComponent?_of_null habsent) reference
    · rw [hsome]
      exact hraw raw hheld
  | alone =>
    cases hheld : (Json.object fields).get? "components" with
    | none => exact lookupIn_none (fun _ => rawComponent?_of_null (.inl hheld)) reference
    | some raw => exact hraw raw hheld

/-- A lookup gives what the entry that the reference names in the document reads as: the reference cannot be
followed unless it names an entry of the bucket, it is missing where the document has no such entry, and the
entry is an item, a further reference or an invalid definition. -/
theorem lookup_eq_readThrough {components : Option Components}
    (hordered : (Json.object fields).ordered = true)
    (hcomponents : Components.AreOf (.object fields) components) (reference : String) :
    lookupRequestBody components reference =
        readThrough .requestBodies decodeRequestBody (.object fields) reference ∧
      lookupResponse components reference =
        readThrough .responses decodeResponse (.object fields) reference ∧
      lookupParameter components reference =
        readThrough .parameters decodeParameter (.object fields) reference :=
  ⟨lookupIn_eq_readThrough isBucket_requestBodies hordered hcomponents reference,
    lookupIn_eq_readThrough isBucket_responses hordered hcomponents reference,
    lookupIn_eq_readThrough isBucket_parameters hordered hcomponents reference⟩

end


/-- Parameters of pages: one that refers to another, and one that is none. -/
def pageParameters : Fields :=
  [("broken", .number (.int 5)),
   ("first/page", .object [("$ref", .string "#/components/parameters/offset")]),
   ("offset", .object [("in", .string "query"), ("name", .string "offset")])]

def pageDocument : Fields :=
  [("components", .object [("parameters", .object pageParameters)]), ("openapi", .string "3.0.0"),
   ("paths", .object [])]

/-- A name may have a slash in it, which its reference escapes; the reference found there is not followed. -/
theorem pageDocument_looked_up :
    (Json.object pageDocument).ordered = true ∧
      Components.AreOf (.object pageDocument) (some (.ofJson (.object [("parameters", .object pageParameters)]))) ∧
      lookupParameter (some (.ofJson (.object [("parameters", .object pageParameters)])))
        "#/components/parameters/first~1page" = .error (.nestedReference "#/components/parameters/offset") := by
  have hordered : (Json.object pageDocument).ordered = true := by decide
  have hcomponents : Components.AreOf (.object pageDocument)
      (some (.ofJson (.object [("parameters", .object pageParameters)]))) := .alone
  refine ⟨hordered, hcomponents, ?_⟩
  rw [(lookup_eq_readThrough hordered hcomponents _).2.2]
  rfl

end ApiContract
