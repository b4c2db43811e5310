import ApiContract.Format.UriResolution
import ApiContract.Json.Pointer
import ApiContract.Text.Utf8

/-!
# Targets of references

The references of a schema lead into its own root document: a number sign, and behind it a pointer in
percent encoding. No other document is known.

* `TargetError`: why a reference leads nowhere, with `TargetError.message`.
* `targetOf`: the part of a document that a reference leads to.
-/

namespace ApiContract

/-! ## Failures -/

/-- Why a reference leads nowhere. -/
inductive TargetError where
  /-- A text that is no reference at all. -/
  | malformed (reference reason : String)
  /-- Another document. -/
  | unknownDocument (uri reason : String)
  /-- A pointer whose encoded bytes form no text. -/
  | malformedPointer (pointer : String)
  /-- A pointer to a part that is not there. -/
  | missing (pointer : String)
  /-- A step into an array that is no number. -/
  | malformedIndex (pointer step : String)
  | missingAnchor (name : String)
  | malformedAnchor (name : String)
deriving DecidableEq, Repr

namespace TargetError

def message : TargetError → String
  | malformed reference reason => "Invalid URI reference '" ++ reference ++ "': " ++ reason
  | unknownDocument uri reason =>
    "Resource '" ++ uri ++ "' is not present in a registry and retrieving it failed: " ++ reason
  | malformedPointer pointer =>
    "Invalid percent encoding in pointer '" ++ pointer ++
      "': the decoded bytes do not represent valid UTF-8"
  | missing pointer => "Pointer '" ++ pointer ++ "' does not exist"
  | malformedIndex pointer step =>
    "Failed to parse array index '" ++ step ++ "' in pointer '" ++ pointer ++ "'"
  | missingAnchor name => "Anchor '" ++ name ++ "' does not exist"
  | malformedAnchor name => "Anchor '" ++ name ++ "' is invalid"

end TargetError

/-! ## Documents -/

/-- The identifier of a root document. -/
def rootUri : Uri.Parts := Uri.split "json-schema:///".toList

/-- The identifier, without a fragment, of the document that a reference leads to. -/
def documentUri (reference : String) : String :=
  let target := Uri.normalized (Uri.resolve rootUri (Uri.split reference.toList))
  Uri.text { target with fragment := none }

/-- The text behind the number sign of a reference into the document itself. -/
def localFragment? (reference : String) : Option String :=
  match reference.toList with
  | [] => some ""
  | '#' :: rest => some (String.ofList rest)
  | _ => none

/-! ## Pointers -/

/-- Goes along the steps of a pointer, each as it is written. -/
def followSteps (pointer : String) (value : Json) : List String → Except TargetError Json
  | [] => .ok value
  | step :: rest =>
    match value with
    | .array items =>
      match indexOfStep? step with
      | none => .error (.malformedIndex pointer step)
      | some i =>
        match items[i]? with
        | some item => followSteps pointer item rest
        | none => .error (.missing pointer)
    | _ =>
      match value.child? (unescapeStep step) with
      | some part => followSteps pointer part rest
      | none => .error (.missing pointer)

/-- The part of a document that a fragment leads to. Names of places other than pointers are not
known. -/
def targetOfFragment (root : Json) (fragment : String) : Except TargetError Json :=
  match fragment.toList with
  | [] => .ok root
  | '/' :: rest =>
    let bytes := percentBytes false rest
    if isUtf8 bytes then
      followSteps fragment root (splitSlashes (String.ofList (utf8Decode bytes)))
    else .error (.malformedPointer fragment)
  | name =>
    if name.contains '/' then .error (.malformedAnchor fragment)
    else .error (.missingAnchor fragment)

/-- The part of a document that a reference leads to. -/
def targetOf (root : Json) (reference : String) : Except TargetError Json :=
  match Uri.fault? reference with
  | some reason => .error (.malformed reference reason)
  | none =>
    match localFragment? reference with
    | some fragment => targetOfFragment root fragment
    | none =>
      .error (.unknownDocument (documentUri reference)
        "Retrieving external resources is not supported once the registry is populated")

end ApiContract
