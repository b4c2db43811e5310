import ApiContract.Format
import ApiContract.Json.Printer
import ApiContract.Schema.Value

/-!
# Assertions

The keywords of a schema that look at an instance alone, without applying another schema to it or to its
parts. `assertionFailures` gives the messages of what an instance fails; none if it satisfies the
keyword.
-/

namespace ApiContract

namespace Assertion

/-! ## Types and values -/

/-- The names of types that a schema allows. -/
def typeNames : Json → List String
  | .string name => [name]
  | .array names => names.filterMap Json.string?
  | _ => []

/-- Whether an instance has one of the named types. -/
def hasTypeOf (names : List String) (inst : Json) : Bool :=
  SchemaType.all.any fun type => names.contains type.name && type.holds inst

def typeMessage (names : List String) (inst : Json) : String :=
  match names with
  | [name] => inst.compact ++ " is not of type \"" ++ name ++ "\""
  | _ =>
    let known := SchemaType.all.filter fun type => names.contains type.name
    inst.compact ++ " is not of types " ++
      joinWith ", " (known.map fun type => "\"" ++ type.name ++ "\"")

/-- The distance below which a number counts as the constant. -/
def constantTolerance : Number := .float ⟨false, Nat.pow 2 52, -104⟩

/-- Whether two numbers are nearer to each other than the tolerance. -/
def isNear (a b : Number) : Bool :=
  match a.toBinary64.sub? b.toBinary64 with
  | some d => (Number.float { d with negative := false }).lessValue constantTolerance
  | none => false

/-- Whether an instance is a constant. -/
def isConstant (constant inst : Json) : Bool :=
  match constant, inst with
  | .number a, .number b => isNear a b
  | _, _ => constant.sameValue inst

/-! ## Numbers -/

/-- The fraction of a quotient, with the sign of the quotient, is below the tolerance. -/
def hasSmallFraction (q : Binary64) : Bool :=
  let f := q.fraction
  let r := Int.tmod f.1 f.2
  decide (r * Nat.pow 2 52 < f.2)

/-- Whether a number is a multiple of another one. An integral one is tried on the nearest float of the
number; otherwise the rounded quotient has to be near an integer from above. Where the quotient is out
of range, the decimal values are divided exactly. -/
def isMultiple (x m : Number) : Bool :=
  let a := x.toBinary64
  let b := m.toBinary64
  if b.isZero then false
  else if b.isIntegral then
    let p := a.fraction
    let q := b.fraction
    Int.tmod (p.1 * q.2) (q.1 * p.2) == 0
  else
    match a.div? b with
    | some q => hasSmallFraction q
    | none =>
      let p := a.decimalFraction
      let q := b.decimalFraction
      p.1 * q.2 % (q.1 * p.2) == 0

/-! ## Counts -/

/-- A limit of a count: an integral number, taken into the range of 64 bits. -/
def countLimit? : Json → Option Nat
  | .number n =>
    if n.isIntegral then
      let whole : Int := match n with
        | .int i => i
        | .float x => x.truncate
      some (min whole.toNat (Nat.pow 2 64 - 1))
    else none
  | _ => none

/-- A number of things, which is one thing for one. -/
def countText (n : Nat) (one many : String) : String :=
  naturalText n ++ " " ++ (if n = 1 then one else many)

/-- A message if a count lies above a limit. -/
def aboveLimit (limit : Json) (count : Nat) (message : Nat → String) : List String :=
  match countLimit? limit with
  | some n => if n < count then [message n] else []
  | none => []

/-- A message if a count lies below a limit. -/
def belowLimit (limit : Json) (count : Nat) (message : Nat → String) : List String :=
  match countLimit? limit with
  | some n => if count < n then [message n] else []
  | none => []

/-! ## Names -/

/-- The names of a list that an object lacks. -/
def missingNames (names : List Json) (fields : Fields) : List String :=
  (names.filterMap Json.string?).filter fun name => !fields.hasKey name

def requiredMessage (name : String) : String := Json.quoteText name ++ " is a required property"

end Assertion

open Assertion in
/-- The messages of what an instance fails of a keyword that only looks at the instance itself. -/
def assertionFailures (keyword : String) (value inst : Json) : List String :=
  match keyword, inst with
  | "type", _ =>
    let names := typeNames value
    if hasTypeOf names inst then [] else [typeMessage names inst]
  | "enum", _ =>
    match value with
    | .array values =>
      if values.any (·.sameValue inst) then []
      else [inst.compact ++ " is not one of " ++ value.compact]
    | _ => []
  | "const", _ => if isConstant value inst then [] else [value.compact ++ " was expected"]
  | "minimum", .number n =>
    match value with
    | .number limit =>
      if n.lessValue limit then [n.text ++ " is less than the minimum of " ++ limit.text] else []
    | _ => []
  | "maximum", .number n =>
    match value with
    | .number limit =>
      if limit.lessValue n then [n.text ++ " is greater than the maximum of " ++ limit.text]
      else []
    | _ => []
  | "exclusiveMinimum", .number n =>
    match value with
    | .number limit =>
      if limit.lessValue n then []
      else [n.text ++ " is less than or equal to the minimum of " ++ limit.text]
    | _ => []
  | "exclusiveMaximum", .number n =>
    match value with
    | .number limit =>
      if n.lessValue limit then []
      else [n.text ++ " is greater than or equal to the maximum of " ++ limit.text]
    | _ => []
  | "multipleOf", .number n =>
    match value with
    | .number m =>
      if isMultiple n m then []
      else [n.text ++ " is not a multiple of " ++ Layout.positional.render m.toBinary64]
    | _ => []
  | "minLength", .string s =>
    belowLimit value s.length fun n =>
      inst.compact ++ " is shorter than " ++ countText n "character" "characters"
  | "maxLength", .string s =>
    aboveLimit value s.length fun n =>
      inst.compact ++ " is longer than " ++ countText n "character" "characters"
  | "minItems", .array items =>
    belowLimit value items.length fun n =>
      inst.compact ++ " has less than " ++ countText n "item" "items"
  | "maxItems", .array items =>
    aboveLimit value items.length fun n =>
      inst.compact ++ " has more than " ++ countText n "item" "items"
  | "minProperties", .object fields =>
    belowLimit value fields.length fun n =>
      inst.compact ++ " has less than " ++ countText n "property" "properties"
  | "maxProperties", .object fields =>
    aboveLimit value fields.length fun n =>
      inst.compact ++ " has more than " ++ countText n "property" "properties"
  | "uniqueItems", .array items =>
    match value with
    | .bool true =>
      if Json.allDistinct items then [] else [inst.compact ++ " has non-unique elements"]
    | _ => []
  | "required", .object fields =>
    match value with
    | .array names => (missingNames names fields).map requiredMessage
    | _ => []
  | "pattern", .string s =>
    match value with
    | .string pattern =>
      if matchesPattern pattern s then []
      else [inst.compact ++ " does not match \"" ++ pattern ++ "\""]
    | _ => []
  | "format", .string s =>
    match value with
    | .string name =>
      match Format.ofName? name with
      | some format =>
        if format.holds s then [] else [inst.compact ++ " is not a \"" ++ name ++ "\""]
      | none => []
    | _ => []
  | _, _ => []

end ApiContract
