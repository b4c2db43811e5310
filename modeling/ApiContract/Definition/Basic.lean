import ApiContract.Json.Basic

/-!
# Definitions of a contract

The parts of an OpenAPI document that are looked into. Schemas stay JSON values; so do path items and
operations until the routes are built, and the entries of `components` are read one by one, so that a
malformed definition only concerns those who use it.

* `OrReference`: an item in place, or a reference to one.
* `Document`, `PathItem`, `Operation`, `Parameter`, `RequestBody`, `Response`, `MediaType`,
  `Components`.
* `jsonMediaType?`: the media type whose schema JSON bodies are checked against.
-/

namespace ApiContract

/-- An item in place, or a reference to one. -/
inductive OrReference (α : Type) where
  | reference (target : String)
  | item (value : α)
deriving Repr

/-- The reference, where one stands. -/
def OrReference.reference? {α : Type} : OrReference α → Option String
  | reference target => some target
  | item _ => none

/-- Entries by name, sorted by name. -/
abbrev Table (α : Type) := List (String × α)

/-- The entry of a name. -/
def Table.get? {α : Type} (table : Table α) (name : String) : Option α :=
  (table.find? (·.1 == name)).map (·.2)

/-! ## Content -/

/-- What is said of one media type: a schema, or nothing. -/
structure MediaType where
  schema : Option Json
deriving Repr, Inhabited

/-- The media type of JSON bodies: `application/json`, else the one with the character set UTF-8
written the usual way, else the first one with any parameters. -/
def jsonMediaType? (content : Table MediaType) : Option MediaType :=
  (content.get? "application/json").or <|
    (content.get? "application/json; charset=utf-8").or <|
      (content.find? fun entry => hasParameters entry.1).map (·.2)
where
  /-- Whether a media type is that of JSON with parameters behind it. -/
  hasParameters (name : String) : Bool :=
    "application/json;".toList.isPrefixOf (name.toList.map lower)
  lower (c : Char) : Char := if 'A' ≤ c && c ≤ 'Z' then Char.ofNat (c.toNat + 32) else c

/-! ## Operations -/

/-- Where a parameter is carried. -/
inductive ParameterLocation where
  | query | header | path | cookie | other
deriving DecidableEq, Repr

structure Parameter where
  name : String
  location : ParameterLocation
  required : Bool
  allowEmptyValue : Bool
  schema : Option Json
deriving Repr

structure RequestBody where
  content : Table MediaType
  required : Bool
deriving Repr

/-- The schema of a JSON request body. -/
def RequestBody.jsonSchema? (body : RequestBody) : Option Json :=
  (jsonMediaType? body.content).bind (·.schema)

structure Response where
  content : Table MediaType
deriving Repr

/-- The schema of a JSON response body. -/
def Response.jsonSchema? (response : Response) : Option Json :=
  (jsonMediaType? response.content).bind (·.schema)

/-- An operation; the responses are named by their status. -/
structure Operation where
  parameters : List (OrReference Parameter)
  requestBody : Option (OrReference RequestBody)
  responses : Table (OrReference Response)
deriving Repr

/-- The methods an operation can be declared for. -/
inductive Method where
  | get | put | post | delete | options | head | patch | trace
deriving DecidableEq, Repr

namespace Method

def all : List Method := [get, put, post, delete, options, head, patch, trace]

def name : Method → String
  | get => "get"
  | put => "put"
  | post => "post"
  | delete => "delete"
  | options => "options"
  | head => "head"
  | patch => "patch"
  | trace => "trace"

end Method

/-- The operations of one path and the parameters they share, not looked into yet. -/
structure PathItem where
  operation : Method → Option Json
  parameters : List Json

/-- The declared operations, in the order of the methods. -/
def PathItem.operations (item : PathItem) : List (Method × Json) :=
  Method.all.filterMap fun method => (item.operation method).map fun raw => (method, raw)

/-! ## Documents -/

/-- The reusable definitions. An entry that could not be read is left out of its bucket; `invalid`
keeps the reason under the names of bucket and entry. -/
structure Components where
  schemas : Fields
  requestBodies : Table (OrReference RequestBody)
  responses : Table (OrReference Response)
  parameters : Table (OrReference Parameter)
  invalid : Table String
deriving Repr

structure Document where
  version : String
  paths : Fields
  components : Option Components
deriving Repr

end ApiContract
