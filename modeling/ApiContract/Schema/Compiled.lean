import ApiContract.ContractError
import ApiContract.Schema.Guard
import ApiContract.Schema.WellFormed

/-!
# Compiled schemas

A schema of a contract is compiled once, together with the components that it may refer to, and is then
applied to instances.

* `CompiledSchema.compile`: checks that the schema can be used.
* `CompiledSchema.violations`: what an instance fails of it.
-/

namespace ApiContract

/-- A schema that can be used. -/
structure CompiledSchema where
  /-- The name under which the schema is known to clients. -/
  name : String
  /-- The schema, with the components beside its keywords. -/
  root : Json
  /-- Whether the guard is needed. -/
  isDiscriminated : Bool
deriving Repr

namespace CompiledSchema

/-- A schema as a root document. One that is no object stands in a list of one. -/
def rootOf (schema : Json) (components : Option Json) : Json :=
  let fields := match schema with
    | .object fields => fields
    | other => [("allOf", .array [other])]
  match components with
  | some value => .object (Fields.insertIfAbsent "components" value fields)
  | none => .object fields

/-- Compiles a schema. -/
def compile (name : String) (schema : Json) (components : Option Json) :
    Except ContractError CompiledSchema :=
  let root := rootOf schema components
  match schemaFault? root with
  | some reason => .error (.schemaCompile name reason)
  | none => .ok ⟨name, root, reachesDiscriminator root⟩

theorem compile_of_faultless {name : String} {schema root : Json} {components : Option Json}
    (hroot : rootOf schema components = root) (hforeign : foreignFault? root = none)
    (hmeta : metaFault? root = none) (hkeywords : keywordFault? root = none) :
    compile name schema components = .ok ⟨name, root, reachesDiscriminator root⟩ := by
  unfold compile schemaFault?
  simp only [hroot, hforeign, hmeta, hkeywords]
  rfl

/-- A finding as clients are told of it. -/
def violationOf (schema : CompiledSchema) (finding : Finding) : Violation :=
  { keyword := keywordOf? finding.schemaSteps
    message := finding.message
    schemaPointer := some (schemaPointerOf schema.root schema.name (pointerText finding.schemaSteps))
    instancePath := pointerText finding.instanceSteps }

/-- What an instance fails of a schema; nothing if it is valid. -/
def violations (schema : CompiledSchema) (inst : Json) : List Violation :=
  (Evaluation.findings schema.root schema.root inst).map schema.violationOf ++
    (if schema.isDiscriminated then guardViolations schema.root schema.name inst else [])

/-- Whether an instance is valid. -/
def accepts (schema : CompiledSchema) (inst : Json) : Bool := (schema.violations inst).isEmpty

end CompiledSchema

end ApiContract
