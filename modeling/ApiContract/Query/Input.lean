import ApiContract.Json.Basic
import ApiContract.Text.Utf8

/-!
# Query input

A query is a list of named texts. Names may nest values: `page[offset]=0` gives `page` an object with
the field `offset`.

* `decodeQueryString`: the pairs of a query as it stands behind the question mark of an address.
* `fieldsOfPairs`: the last text of each name.
* `nestFields`: the values at the places that their names spell.
-/

namespace ApiContract

/-! ## Encoded queries -/

/-- The text that a piece of an encoded query stands for. -/
def decodeComponent (piece : List Char) : String :=
  String.ofList (utf8Decode (percentBytes true piece))

/-- The name before the first equals sign of a piece, and the value behind it. -/
def decodePair (piece : List Char) : String × String :=
  (decodeComponent (piece.takeWhile (· ≠ '=')),
   decodeComponent ((piece.dropWhile (· ≠ '=')).drop 1))

/-- The pairs of an encoded query; a question mark before it does not count. -/
def decodeQueryString (query : String) : List (String × String) :=
  let body := match query.toList with
    | '?' :: rest => rest
    | other => other
  ((body.splitOn '&').filter (!·.isEmpty)).map decodePair

/-- The last text of each name, sorted by name. -/
def fieldsOfPairs (pairs : List (String × String)) : Fields :=
  Fields.ofList (pairs.map fun pair => (pair.1, .string pair.2))

/-! ## Nested names -/

/-- The steps that a name spells: the parts between its opening brackets, without closing ones. -/
def nameSteps (name : String) : List String :=
  (name.toList.splitOn '[').map fun part => String.ofList (part.filter (· ≠ ']'))

/-- Puts a value at the end of steps. What stands in the way and is no object is replaced. -/
def insertNested (value : Json) : List String → Fields → Fields
  | [], target => target
  | [last], target => target.insert last value
  | step :: rest, target =>
    let inner := match target.get? step with
      | some (.object fields) => fields
      | _ => []
    target.insert step (.object (insertNested value rest inner))

/-- The values at the places that their names spell. -/
def nestFields (fields : Fields) : Fields :=
  fields.foldl (fun nested field => insertNested field.2 (nameSteps field.1) nested) []

end ApiContract
