import ApiContract.Json.Size

/-!
# Parts of values

A part of a value comes with the fact that it is smaller, so that a function that goes from a value to
its parts ends.

* `Part`: a value smaller than another one.
* `Json.itemParts`, `Json.fieldParts`, `Json.part?`: the items of an array, the fields of an object, and
  the value of one key.
-/

namespace ApiContract

/-- A value that is smaller than a whole. -/
structure Part (whole : Json) where
  value : Json
  smaller : sizeOf value < sizeOf whole

/-- A part of a part. -/
def Part.inner {whole : Json} (outer : Part whole) (part : Part outer.value) : Part whole :=
  ⟨part.value, Nat.lt_trans part.smaller outer.smaller⟩

namespace Json

/-- The items of an array. -/
def itemParts (whole : Json) : List (Part whole) :=
  match whole with
  | .array items =>
    items.attach.map fun item => ⟨item.1, sizeOf_item_lt item.2⟩
  | _ => []

/-- The fields of an object. -/
def fieldParts (whole : Json) : List (String × Part whole) :=
  match whole with
  | .object fields =>
    fields.attach.map fun field => (field.1.1, ⟨field.1.2, sizeOf_member_lt field.2⟩)
  | _ => []

/-- The names of the fields of an object, as values. -/
def nameParts (whole : Json) : List (Part whole) :=
  match whole with
  | .object fields =>
    fields.attach.map fun field => ⟨.string field.1.1, sizeOf_name_lt field.2⟩
  | _ => []

/-- The value of a key of an object. -/
def part? (whole : Json) (key : String) : Option (Part whole) :=
  match h : whole.get? key with
  | some value => some ⟨value, sizeOf_get?_lt h⟩
  | none => none

end Json

/-- The items of a part that is an array. -/
def Part.items {whole : Json} (part : Part whole) : List (Part whole) :=
  part.value.itemParts.map part.inner

/-- The fields of a part that is an object. -/
def Part.fields {whole : Json} (part : Part whole) : List (String × Part whole) :=
  part.value.fieldParts.map fun field => (field.1, part.inner field.2)

/-- Numbers items from zero. -/
def numbered {α : Type} (items : List α) : List (Nat × α) :=
  (List.range items.length).zip items

end ApiContract
