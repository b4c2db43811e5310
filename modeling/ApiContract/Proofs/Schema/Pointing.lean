import ApiContract.Proofs.Json.Pointers

/-! # What pointers into a schema point to

A finding comes with the path on which evaluation came to the keyword. Clients are given a pointer instead,
which starts anew at every reference that was followed. Read as a reference itself, it leads to the end of
the path, as long as no property on the path has the empty name.

* `pathSegments?`: the segments of a path.
* `Trail`, `TrailStep`, `Walks`: a walk along segments, which follows references where the path does.
* `TrailStep.next_reached`, `Walks.foldl_next`: the place that is reached by one segment, and by all.
* `TrailStep.stands`, `Walks.stands`: a trail is where its reference and its segments say.
* `schemaPointerOf_dereferences`: the pointer to the end of a walk. -/

set_option autoImplicit false

namespace ApiContract

/-! ## Paths -/

/-- The segments of a path, each behind a slash. -/
def pathSegments? (path : String) : Option (List String) :=
  match path.toList with
  | [] => some []
  | '/' :: rest => some (splitSlashes (String.ofList rest))
  | _ => none

section

variable {path : String} {segments : List String}

theorem segmentsText_of_pathSegments? (h : pathSegments? path = some segments) :
    segmentsText segments = path ∧ ∀ segment ∈ segments, '/' ∉ segment.toList := by
  unfold pathSegments? at h
  split at h
  · rename_i hempty
    cases h
    exact ⟨(String.toList_eq_nil_iff.1 hempty).symm, by simp⟩
  · rename_i rest hrest
    cases h
    refine ⟨?_, fun segment hsegment => slash_not_mem_of_mem_splitSlashes hsegment⟩
    rw [segmentsText_splitSlashes, ← String.toList_inj, hrest, String.toList_append]
    exact congrArg (List.cons '/') (String.toList_ofList ..)
  · cases h

/-- Of a path without empty segments all segments are gone. -/
theorem schemaPointerOf_eq {root : Json} {name : String} (h : pathSegments? path = some segments)
    (hempty : "" ∉ segments) : schemaPointerOf root name path =
      (segments.foldl (Reached.next root) ⟨name, [], some root⟩).text := by
  obtain ⟨rfl, hslash⟩ := segmentsText_of_pathSegments? h
  have hfilter : (splitSlashes (segmentsText segments)).filter (fun segment => !segment.isEmpty) =
      segments := by
    rw [splitSlashes_segmentsText hslash, List.filter_cons_of_neg (by decide), List.filter_eq_self]
    intro segment hsegment
    have hne : segment ≠ "" := fun heq => hempty (heq ▸ hsegment)
    simpa using hne
  rw [schemaPointerOf, hfilter]

end

/-! ## Walks -/

/-- Where a walk in a schema is. -/
structure Trail where
  /-- The last reference that was followed. -/
  reference : Option String
  /-- The segments since then. -/
  segments : List String
  value : Json

/-- One segment of a walk: `$ref` at a value with a reference leads to what that refers to, and every other
segment to the part of the value that it names. -/
inductive TrailStep (root : Json) (trail : Trail) : String → Trail → Prop where
  | jump {reference : String} {target : Json} (href : trail.value.reference? = some reference)
    (htarget : root.resolve? reference = some target) :
    TrailStep root trail "$ref" ⟨some reference, [], target⟩
  | part {segment : String} {part : Json} (href : segment = "$ref" → trail.value.reference? = none)
    (hpart : trail.value.child? (unescapeStep segment) = some part) :
    TrailStep root trail segment ⟨trail.reference, trail.segments ++ [segment], part⟩

/-- A walk along segments. -/
inductive Walks (root : Json) : Trail → List String → Trail → Prop where
  | here (trail : Trail) : Walks root trail [] trail
  | step {trail next last : Trail} {segment : String} {rest : List String}
    (hstep : TrailStep root trail segment next) (h : Walks root next rest last) :
    Walks root trail (segment :: rest) last

/-- Where a walk starts. -/
def Trail.start (root : Json) : Trail := ⟨none, [], root⟩

/-- The place of a trail in a schema of a name. -/
def Trail.reached (name : String) (trail : Trail) : Reached :=
  ⟨trail.reference.getD name, trail.segments, some trail.value⟩

section

variable {root : Json} {trail next last : Trail} {segment : String} {segments : List String}

theorem TrailStep.next_reached (name : String) (h : TrailStep root trail segment next) :
    (trail.reached name).next root segment = next.reached name := by
  cases h with
  | @jump reference target href htarget =>
    have hfollow : (trail.reached name).follow? root = some ⟨reference, [], some target⟩ := by
      rw [Reached.follow?, Trail.reached, Option.bind_some, href, Option.map_some, htarget]
    rw [Reached.next, if_pos rfl, hfollow]
    rfl
  | @part _ part href hpart =>
    have hpart' : (trail.reached name).part? segment = some part := hpart
    have hchild : (trail.reached name).child segment =
        ⟨trail.reference.getD name, trail.segments ++ [segment], some part⟩ := by
      rw [Reached.child, hpart']
      rfl
    rw [Reached.next]
    split
    · rename_i heq
      have hfollow : (trail.reached name).follow? root = none := by
        rw [Reached.follow?, Trail.reached, Option.bind_some, href heq, Option.map_none]
      rw [hfollow, Option.getD_none, hchild]
      rfl
    · rw [hpart', Option.isSome_some, if_pos rfl, hchild]
      rfl

/-- The place at the end of a walk. -/
theorem Walks.foldl_next (name : String) (h : Walks root trail segments last) :
    segments.foldl (Reached.next root) (trail.reached name) = last.reached name := by
  induction h with
  | here trail => rfl
  | step hstep _ ih => rw [List.foldl_cons, hstep.next_reached name, ih]

/-- A trail leads to its value: its segments do, from what its reference refers to, or from the root. -/
structure Trail.Stands (root : Json) (trail : Trail) : Prop where
  slashless : ∀ segment ∈ trail.segments, '/' ∉ segment.toList
  leads : root.resolve? (trail.reference.getD "#" ++ segmentsText trail.segments) = some trail.value

theorem Trail.stands_start (root : Json) : (Trail.start root).Stands root :=
  ⟨by simp [Trail.start], Json.resolve?_nodeReference root []⟩

theorem TrailStep.stands (hslash : '/' ∉ segment.toList) (htrail : trail.Stands root)
    (h : TrailStep root trail segment next) : next.Stands root := by
  cases h with
  | jump href htarget => exact ⟨by simp, by simpa using htarget⟩
  | part href hpart =>
    refine ⟨?_, ?_⟩
    · rw [List.forall_mem_append, List.forall_mem_singleton]
      exact ⟨htrail.slashless, hslash⟩
    · rw [segmentsText_append, ← String.append_assoc, Json.resolve?_append htrail.leads
        (List.forall_mem_singleton.2 hslash), List.map_singleton, Json.follow?, hpart]
      rfl

theorem Walks.stands (hslash : ∀ segment ∈ segments, '/' ∉ segment.toList) (htrail : trail.Stands root)
    (h : Walks root trail segments last) : last.Stands root := by
  induction h with
  | here trail => exact htrail
  | step hstep _ ih =>
    obtain ⟨hsegment, hrest⟩ := List.forall_mem_cons.1 hslash
    exact ih hrest (hstep.stands hsegment htrail)

/-- As long as no reference is followed, the segments are all there. -/
theorem Walks.segments_eq (h : Walks root trail segments last) (hlast : last.reference = none) :
    trail.reference = none ∧ last.segments = trail.segments ++ segments := by
  induction h with
  | here trail => exact ⟨hlast, by simp⟩
  | step hstep _ ih =>
    obtain ⟨hnext, hsegments⟩ := ih hlast
    cases hstep with
    | jump => cases hnext
    | part => exact ⟨hnext, by rw [hsegments]; simp⟩

end

/-! ## Pointers -/

/-- The pointer to the end of a walk is the path behind the name of the schema, or the rest of the path
behind the last reference that was followed; this one is resolved to the value at the end. -/
theorem schemaPointerOf_dereferences {root : Json} {name path : String} {segments : List String}
    {last : Trail} (hpath : pathSegments? path = some segments) (hempty : "" ∉ segments)
    (hwalk : Walks root (.start root) segments last) :
    (last.reference = none → schemaPointerOf root name path = name ++ path) ∧
      ∀ reference, last.reference = some reference →
        schemaPointerOf root name path = reference ++ segmentsText last.segments ∧
          root.resolve? (schemaPointerOf root name path) = some last.value := by
  obtain ⟨htext, hslash⟩ := segmentsText_of_pathSegments? hpath
  have hpointer : schemaPointerOf root name path =
      last.reference.getD name ++ segmentsText last.segments := by
    rw [schemaPointerOf_eq hpath hempty]
    exact congrArg Reached.text (hwalk.foldl_next name)
  refine ⟨fun hnone => ?_, fun reference hsome => ?_⟩
  · rw [hpointer, hnone, Option.getD_none, (hwalk.segments_eq hnone).2, ← htext]
    rfl
  · have hleads := (hwalk.stands hslash (Trail.stands_start root)).leads
    rw [hsome, Option.getD_some] at hpointer hleads
    exact ⟨hpointer, by rw [hpointer, hleads]⟩

/-- A property that has the name of a keyword, behind a reference. -/
def referenceNamed : Json :=
  .object
    [("$ref", .string "#/components/a~1b"),
      ("components", .object
        [("a/b", .object [("properties", .object [("$ref", .object [("type", .string "string")])])])])]

theorem schemaPointerOf_referenceNamed :
    let last : Trail :=
      ⟨some "#/components/a~1b", ["properties", "$ref", "type"], .string "string"⟩
    pathSegments? "/$ref/properties/$ref/type" = some ["$ref", "properties", "$ref", "type"] ∧
      "" ∉ ["$ref", "properties", "$ref", "type"] ∧
      Walks referenceNamed (.start referenceNamed) ["$ref", "properties", "$ref", "type"] last ∧
      schemaPointerOf referenceNamed "#/x" "/$ref/properties/$ref/type" =
        "#/components/a~1b" ++ segmentsText last.segments ∧
      referenceNamed.resolve? (schemaPointerOf referenceNamed "#/x" "/$ref/properties/$ref/type") =
        some last.value := by
  have hpath : pathSegments? "/$ref/properties/$ref/type" =
      some ["$ref", "properties", "$ref", "type"] := by decide
  have hempty : "" ∉ ["$ref", "properties", "$ref", "type"] := by decide
  have hwalk : Walks referenceNamed (.start referenceNamed) ["$ref", "properties", "$ref", "type"]
      ⟨some "#/components/a~1b", ["properties", "$ref", "type"], .string "string"⟩ :=
    .step (.jump rfl rfl) <| .step (.part (by decide) rfl) <| .step (.part (fun _ => rfl) rfl) <|
      .step (.part (by decide) rfl) <| .here _
  exact ⟨hpath, hempty, hwalk, (schemaPointerOf_dereferences hpath hempty hwalk).2 _ rfl⟩

/-- A property without a name is lost, and the pointer is not the path behind the name of the schema. -/
theorem schemaPointerOf_unnamed :
    let root : Json :=
      .object [("properties", .object [("", .object [("type", .string "string")])])]
    let last : Trail := ⟨none, ["properties", "", "type"], .string "string"⟩
    pathSegments? "/properties//type" = some ["properties", "", "type"] ∧
      Walks root (.start root) ["properties", "", "type"] last ∧
      schemaPointerOf root "#/x" "/properties//type" = "#/x/properties/type" ∧
      schemaPointerOf root "#/x" "/properties//type" ≠ "#/x" ++ "/properties//type" := by
  refine ⟨by decide, ?_, by decide, by decide⟩
  exact .step (.part (by decide) rfl) <| .step (.part (by decide) rfl) <|
    .step (.part (by decide) rfl) <| .here _

end ApiContract
