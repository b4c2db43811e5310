import ApiContract.Definition.Decode
import ApiContract.Definition.Basic

/-!
# Reading definitions

How each definition is read from a JSON value. An object whose `$ref` is a text is a reference,
wherever a reference may stand; what else it holds is passed over.

* `decodeDocument`, `decodePathItem`, `decodeOperation`, `decodeParameter`, `decodeRequestBody`,
  `decodeResponse`, `decodeMediaType`: one per definition.
* `Components.ofJson`: the components, which can always be read.
-/

namespace ApiContract

/-! ## References -/

/-- A reference, or what `decode` reads. -/
def decodeOrReference {α : Type} (decode : Json → Decoded α) (value : Json) :
    Decoded (OrReference α) :=
  match value.getString? "$ref" with
  | some target => .ok (.reference target)
  | none =>
    match decode value with
    | .ok item => .ok (.item item)
    | .error _ => .error (.noVariant "RefOr")

/-! ## Content -/

def decodeMediaType : Json → Decoded MediaType :=
  decodeRecord
    [.defaulted "schema" (decodeOptional decodeAny) fun schema _ => ⟨schema⟩]
    "MediaType" ⟨none⟩

def decodeContent : Json → Decoded (Table MediaType) := decodeTable decodeMediaType

/-! ## Operations -/

/-- The location that a word names; unknown words name some other place. -/
def ParameterLocation.ofWord (word : String) : ParameterLocation :=
  if word = "query" then .query
  else if word = "header" then .header
  else if word = "path" then .path
  else if word = "cookie" then .cookie
  else .other

/-- A location is a word, or an object with the word as its only key and null as the value. -/
def decodeLocation : Json → Decoded ParameterLocation
  | .string word => .ok (.ofWord word)
  | .object [(word, .null)] => .ok (.ofWord word)
  | .object [(_, value)] => .error (.wrongKind value "unit")
  | .object fields => .error (.wrongValue (.object fields) "map with a single key")
  | other => .error (.wrongKind other "string or map")

def decodeParameter : Json → Decoded Parameter :=
  decodeRecord
    [.needed "name" decodeText fun name p => { p with name },
     .needed "in" decodeLocation fun location p => { p with location },
     .defaulted "required" decodeFlag fun required p => { p with required },
     .defaulted "allowEmptyValue" decodeFlag fun allowEmptyValue p => { p with allowEmptyValue },
     .defaulted "schema" (decodeOptional decodeAny) fun schema p => { p with schema }]
    "Parameter" ⟨"", .other, false, false, none⟩

def decodeRequestBody : Json → Decoded RequestBody :=
  decodeRecord
    [.defaulted "content" decodeContent fun content b => { b with content },
     .defaulted "required" decodeFlag fun required b => { b with required }]
    "RequestBody" ⟨[], false⟩

def decodeResponse : Json → Decoded Response :=
  decodeRecord [.defaulted "content" decodeContent fun content _ => ⟨content⟩] "Response" ⟨[]⟩

def decodeOperation : Json → Decoded Operation :=
  decodeRecord
    [.defaulted "parameters" (decodeList (decodeOrReference decodeParameter))
       fun parameters o => { o with parameters },
     .defaulted "requestBody" (decodeOptional (decodeOrReference decodeRequestBody))
       fun requestBody o => { o with requestBody },
     .defaulted "responses" (decodeTable (decodeOrReference decodeResponse))
       fun responses o => { o with responses }]
    "Operation" ⟨[], none, []⟩

/-- The field of a path item that holds the operation of a method. -/
def methodField (method : Method) : Field PathItem :=
  .defaulted method.name (decodeOptional decodeAny) fun raw item =>
    { item with operation := fun m => if m = method then raw else item.operation m }

def decodePathItem : Json → Decoded PathItem :=
  decodeRecord
    (Method.all.map methodField ++
      [.defaulted "parameters" (decodeList decodeAny) fun parameters item =>
        { item with parameters }])
    "PathItem" ⟨fun _ => none, []⟩

/-! ## Documents -/

/-- The entries of one bucket that can be read, and the reasons for the others. -/
def readBucket {α : Type} (bucket : String) (decode : Json → Decoded α) (raw : Json) :
    Table (OrReference α) × Table String :=
  match raw.get? bucket with
  | some (.object entries) =>
    (entries.filterMap fun entry =>
        (decodeOrReference decode entry.2).toOption.map fun item => (entry.1, item),
     entries.filterMap fun entry =>
        match decodeOrReference decode entry.2 with
        | .ok _ => none
        | .error e => some (bucket ++ "/" ++ entry.1, e.message))
  | _ => ([], [])

/-- The components of a document; whatever has not the expected shape counts as empty. -/
def Components.ofJson (raw : Json) : Components :=
  let requestBodies := readBucket "requestBodies" decodeRequestBody raw
  let responses := readBucket "responses" decodeResponse raw
  let parameters := readBucket "parameters" decodeParameter raw
  { schemas := ((raw.get? "schemas").bind Json.fields?).getD []
    requestBodies := requestBodies.1
    responses := responses.1
    parameters := parameters.1
    invalid := parameters.2 ++ requestBodies.2 ++ responses.2 }

def decodeComponents (raw : Json) : Decoded Components := .ok (.ofJson raw)

def decodeDocument : Json → Decoded Document :=
  decodeRecord
    [.defaulted "openapi" decodeText fun version d => { d with version },
     .defaulted "paths" (decodeTable decodeAny) fun paths d => { d with paths },
     .defaulted "components" (decodeOptional decodeComponents)
       fun components d => { d with components }]
    "OpenApiDocument" ⟨"", [], none⟩

end ApiContract
