import ApiContract.Definition.Decode

/-!
# Contract errors

Why a contract cannot be compiled. Problems of requests and responses are no contract errors.
-/

namespace ApiContract

/-- Why a contract cannot be compiled. References stand as they are written in the document. -/
inductive ContractError where
  /-- A reference that names no component of the kind expected where it stands. -/
  | unfollowableReference (reference : String)
  /-- A reference to a component that does not exist. -/
  | missingReference (reference : String)
  /-- A reference found where another reference led. -/
  | nestedReference (reference : String)
  /-- A path without a path item. -/
  | missingPathDetail (path : String)
  /-- A definition of another shape than expected, at a place in the document. -/
  | invalidDefinition (location reason : String)
  /-- A schema that cannot be compiled. -/
  | schemaCompile (schemaName reason : String)
  /-- A document of another shape than expected. -/
  | invalidDocument (reason : String)
  /-- A contract that cannot be read from its source. -/
  | load (source reason : String)
deriving DecidableEq, Repr

namespace ContractError

/-- The word for the kind of error. -/
def kind : ContractError → String
  | unfollowableReference _ => "UnfollowableReference"
  | missingReference _ => "MissingReference"
  | nestedReference _ => "NestedReference"
  | missingPathDetail _ => "MissingPathDetail"
  | invalidDefinition _ _ => "InvalidDefinition"
  | schemaCompile _ _ => "SchemaCompile"
  | invalidDocument _ => "InvalidDocument"
  | load _ _ => "Load"

def message : ContractError → String
  | unfollowableReference reference => "unable to follow reference '" ++ reference ++ "'"
  | missingReference reference => "unable to find reference '" ++ reference ++ "'"
  | nestedReference reference => "a reference was not expected here: '" ++ reference ++ "'"
  | missingPathDetail path => "expected to find detail for " ++ path
  | invalidDefinition location reason =>
    "invalid definition at '" ++ location ++ "': " ++ reason
  | schemaCompile schemaName reason =>
    "schema compile error for '" ++ schemaName ++ "': " ++ reason
  | invalidDocument reason => "invalid OpenAPI document: " ++ reason
  | load source reason => "contract load error for '" ++ source ++ "': " ++ reason

/-- Whether a reference could not be resolved. -/
def isReferenceError : ContractError → Bool
  | unfollowableReference _ | missingReference _ | nestedReference _ => true
  | _ => false

end ContractError

/-- Reads a definition; a failure is told with its place. -/
def readDefinition {α : Type} (decode : Json → Decoded α) (location : String) (raw : Json) :
    Except ContractError α :=
  (decode raw).mapError fun e => .invalidDefinition location e.message

end ApiContract
