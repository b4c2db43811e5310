import ApiContract.Format.Uri
import ApiContract.Text.Wording

/-!
# Resolution of relative references

* `Uri.resolve`: what a reference means relative to an absolute identifier.
* `Uri.normalized`: one spelling for identifiers that differ in case or encoding only.
* `Uri.fault?`: where a text stops being a reference.
-/

namespace ApiContract

namespace Uri

/-! ## Paths -/

/-- A path of steps, written behind one another; what has been kept so far stands reversed. -/
def dropDotSteps (kept : List (List Char)) : List (List Char) → List (List Char)
  | [] => kept.reverse
  | [['.']] => ([] :: kept).reverse
  | [['.', '.']] => ([] :: kept.drop 1).reverse
  | ['.'] :: rest => dropDotSteps kept rest
  | ['.', '.'] :: rest => dropDotSteps (kept.drop 1) rest
  | step :: rest => dropDotSteps (step :: kept) rest

/-- A path without the steps that stay where they are or go back by one. -/
def withoutDots (path : List Char) : List Char :=
  match path with
  | '/' :: rest => '/' :: ['/'].intercalate (dropDotSteps [] (rest.splitOn '/'))
  | _ => path

/-- A relative path behind the last slash of another one. -/
def mergePaths (base : Parts) (path : List Char) : List Char :=
  if base.authority.isSome && base.path.isEmpty then '/' :: path
  else (base.path.reverse.dropWhile (· ≠ '/')).reverse ++ path

/-! ## Resolution -/

/-- What a reference means relative to an identifier. -/
def resolve (base reference : Parts) : Parts :=
  if reference.scheme.isSome then { reference with path := withoutDots reference.path }
  else if reference.authority.isSome then
    { reference with scheme := base.scheme, path := withoutDots reference.path }
  else if reference.path.isEmpty then
    { base with
      query := if reference.query.isSome then reference.query else base.query
      fragment := reference.fragment }
  else
    let path := match reference.path with
      | '/' :: _ => reference.path
      | _ => mergePaths base reference.path
    { base with
      path := withoutDots path, query := reference.query, fragment := reference.fragment }

/-! ## Normal form -/

/-- An encoded byte in its normal form: the character itself where it needs no encoding. -/
def normalOctet (a b : Char) : List Char :=
  match digitValue? a, digitValue? b with
  | some x, some y =>
    let c := Char.ofNat (x * 16 + y)
    if isUnreserved false c then [c] else ['%', a.toUpper, b.toUpper]
  | _, _ => ['%', a, b]

/-- A component with every encoded byte in its normal form. -/
def normalText : List Char → List Char
  | '%' :: a :: b :: rest => normalOctet a b ++ normalText rest
  | c :: rest => c :: normalText rest
  | [] => []

/-- The parts in the spelling that all their spellings share. -/
def normalized (parts : Parts) : Parts :=
  { scheme := parts.scheme.map (·.map Char.toLower)
    authority := parts.authority.map fun text => normalText (text.map Char.toLower)
    path := withoutDots (normalText parts.path)
    query := parts.query.map normalText
    fragment := parts.fragment.map normalText }

/-- The parts as one text. -/
def text (parts : Parts) : String :=
  String.ofList
    (parts.scheme.elim [] (· ++ [':']) ++ parts.authority.elim [] (['/', '/'] ++ ·) ++
      parts.path ++ parts.query.elim [] ('?' :: ·) ++ parts.fragment.elim [] ('#' :: ·))

/-! ## Faults -/

/-- The first character of a text that no reference can hold there, told with its byte. -/
def faultFrom (inFragment : Bool) (place : Nat) : List Char → Option String
  | [] => none
  | '%' :: rest =>
    match rest with
    | a :: b :: _ =>
      if isHexDigit a && isHexDigit b then faultFrom inFragment (place + 1) rest
      else some ("invalid percent-encoded octet at index " ++ naturalText place)
    | _ => some ("invalid percent-encoded octet at index " ++ naturalText place)
  | c :: rest =>
    if c = '#' && !inFragment then faultFrom true (place + 1) rest
    else if isFragmentChar false c then faultFrom inFragment (place + c.utf8Size) rest
    else some ("unexpected character at index " ++ naturalText place)

/-- Why a text is no reference. -/
def fault? (text : String) : Option String := faultFrom false 0 text.toList

end Uri

end ApiContract
