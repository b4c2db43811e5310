import ApiContract.Definition.Basic

/-!
# Definitions as JSON

How each definition is written as a JSON value: every field is present, null standing for nothing, so
that reading the value gives the definition again.
-/

namespace ApiContract

def OrReference.toJson {α : Type} (write : α → Json) : OrReference α → Json
  | reference target => .object [("$ref", .string target)]
  | item value => write value

def Table.toJson {α : Type} (write : α → Json) (table : Table α) : Json :=
  .objectOf (table.map fun entry => (entry.1, write entry.2))

def MediaType.toJson (media : MediaType) : Json :=
  .object [("schema", .orNull media.schema)]

def ParameterLocation.word : ParameterLocation → String
  | query => "query"
  | header => "header"
  | path => "path"
  | cookie => "cookie"
  | other => "other"

def Parameter.toJson (parameter : Parameter) : Json :=
  .objectOf
    [("name", .string parameter.name),
     ("in", .string parameter.location.word),
     ("required", .bool parameter.required),
     ("allowEmptyValue", .bool parameter.allowEmptyValue),
     ("schema", .orNull parameter.schema)]

def RequestBody.toJson (body : RequestBody) : Json :=
  .objectOf
    [("content", body.content.toJson MediaType.toJson), ("required", .bool body.required)]

def Response.toJson (response : Response) : Json :=
  .objectOf [("content", response.content.toJson MediaType.toJson)]

def Operation.toJson (operation : Operation) : Json :=
  .objectOf
    [("parameters", .array (operation.parameters.map (·.toJson Parameter.toJson))),
     ("requestBody", .orNull (operation.requestBody.map (·.toJson RequestBody.toJson))),
     ("responses", operation.responses.toJson (·.toJson Response.toJson))]

def PathItem.toJson (item : PathItem) : Json :=
  .objectOf
    ((Method.all.map fun method => (method.name, .orNull (item.operation method))) ++
      [("parameters", .array item.parameters)])

def Components.toJson (components : Components) : Json :=
  .objectOf
    [("schemas", .object components.schemas),
     ("requestBodies", components.requestBodies.toJson (·.toJson RequestBody.toJson)),
     ("responses", components.responses.toJson (·.toJson Response.toJson)),
     ("parameters", components.parameters.toJson (·.toJson Parameter.toJson))]

def Document.toJson (document : Document) : Json :=
  .objectOf
    [("openapi", .string document.version),
     ("paths", .object document.paths),
     ("components", .orNull (document.components.map Components.toJson))]

end ApiContract
