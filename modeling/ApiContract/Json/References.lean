import ApiContract.Json.Pointer

/-!
# References in a document

An object refers to another part of the document when the value of its key `$ref` is a text.

* `Json.reference?`: the reference of one object.
* `Json.references`: the references that occur anywhere in a value, each once.

A walk that follows references carries the ones it may still follow; each time it follows one, that
one is taken out. It ends because there are finitely many.
-/

namespace ApiContract

namespace Json

/-- The reference of an object. -/
def reference? (value : Json) : Option String := value.getString? "$ref"

mutual

/-- The references in a value, with repetitions. -/
def allReferences : Json → List String
  | object fields => allReferencesOfFields fields
  | array items => allReferencesOfItems items
  | _ => []

def allReferencesOfItems : List Json → List String
  | [] => []
  | item :: rest => allReferences item ++ allReferencesOfItems rest

def allReferencesOfFields : Fields → List String
  | [] => []
  | (key, value) :: rest =>
    (if key = "$ref" then value.string?.toList else []) ++ allReferences value ++
      allReferencesOfFields rest

end

/-- The references in a value. -/
def references (value : Json) : List String := value.allReferences.eraseDups

end Json

/-- The references left after one has been followed. -/
def withoutReference (reference : String) (pool : List String) : List String :=
  pool.filter (· ≠ reference)

theorem length_withoutReference_lt {reference : String} {pool : List String}
    (h : reference ∈ pool) : (withoutReference reference pool).length < pool.length := by
  unfold withoutReference
  exact List.length_filter_lt_length_iff_exists.2 ⟨reference, h, by simp⟩

/-- The keys whose values are data and not schemas. Walks over a document pass them over. -/
def dataKeywords : List String := ["example", "examples", "enum", "const", "default"]

def isDataKeyword (key : String) : Bool := dataKeywords.contains key

end ApiContract
