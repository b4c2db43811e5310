import ApiContract.Json.Parser
import ApiContract.Json.Printer

/-!
# Texts that hold other content

* `base64Bytes?`: the bytes of a text in base 64, in its one written form.
* `contentFailures`: what a text fails of the content that the keywords `contentMediaType` and
  `contentEncoding` say it holds. Known are JSON and base 64; anything else is not checked.
-/

namespace ApiContract

/-- The six bits that a character writes. -/
def base64Value? (c : Char) : Option Nat :=
  if 'A' ≤ c && c ≤ 'Z' then some (c.toNat - 65)
  else if 'a' ≤ c && c ≤ 'z' then some (c.toNat - 71)
  else if '0' ≤ c && c ≤ '9' then some (c.toNat + 4)
  else if c = '+' then some 62
  else if c = '/' then some 63
  else none

/-- The bytes of groups of four characters. The last group may lack two or three bytes, with equals
signs in their place and no bits set that belong to none. -/
def base64Bytes? : List Char → Option (List Nat)
  | [] => some []
  | [a, b, '=', '='] =>
    match base64Value? a, base64Value? b with
    | some x, some y => if y % 16 = 0 then some [x * 4 + y / 16] else none
    | _, _ => none
  | [a, b, c, '='] =>
    match base64Value? a, base64Value? b, base64Value? c with
    | some x, some y, some z =>
      if z % 4 = 0 then some [x * 4 + y / 16, y % 16 * 16 + z / 4] else none
    | _, _, _ => none
  | a :: b :: c :: d :: rest =>
    match base64Value? a, base64Value? b, base64Value? c, base64Value? d with
    | some x, some y, some z, some w =>
      (base64Bytes? rest).map fun more =>
        (x * 4 + y / 16) :: (y % 16 * 16 + z / 4) :: (z % 4 * 64 + w) :: more
    | _, _, _, _ => none
  | _ => none

/-- Whether a text is JSON. -/
def isJsonText (text : String) : Bool := (Json.parse text).toBool

/-! ## Keywords -/

def encodingMessage (inst : Json) : String :=
  inst.compact ++ " is not compliant with \"base64\" content encoding"

def mediaTypeMessage (inst : Json) : String :=
  inst.compact ++ " is not compliant with \"application/json\" media type"

/-- What a text fails of being JSON, in the encoding that stands beside the media type if there is
one. An encoding that is not known leaves the content unchecked. -/
def jsonContentFailures (encoding : Option Json) (text : String) : List (String × String) :=
  match encoding with
  | none =>
    if isJsonText text then [] else [("contentMediaType", mediaTypeMessage (.string text))]
  | some (.string "base64") =>
    match base64Bytes? text.toList with
    | none => [("contentEncoding", encodingMessage (.string text))]
    | some bytes =>
      if isUtf8 bytes && isJsonText (String.ofList (utf8Decode bytes)) then []
      else [("contentMediaType", mediaTypeMessage (.string text))]
  | some _ => []

/-- The keywords and messages of what an instance fails of one of the two keywords. The encoding is
checked along with the media type where both are given. -/
def contentFailures (keywords : Fields) (keyword : String) (value inst : Json) :
    List (String × String) :=
  match inst with
  | .string text =>
    if keyword = "contentMediaType" then
      match value with
      | .string "application/json" =>
        jsonContentFailures (keywords.get? "contentEncoding") text
      | _ => []
    else if keyword = "contentEncoding" && !keywords.hasKey "contentMediaType" then
      match value with
      | .string "base64" =>
        if (base64Bytes? text.toList).isSome then []
        else [("contentEncoding", encodingMessage inst)]
      | _ => []
    else []
  | _ => []

end ApiContract
