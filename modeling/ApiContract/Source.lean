import ApiContract.ContractError
import ApiContract.Json.Parser
import ApiContract.Text.LowerCase
import ApiContract.Yaml.Resolution

/-!
# Sources of contracts

A contract comes as a text in JSON or in YAML. A file is taken for JSON if its name says so.

* `SourceFormat`, `SourceFormat.ofPath`: the two formats, and the one of a file.
* `readSource`: the document that a text holds.
-/

namespace ApiContract

/-- How a document is written. -/
inductive SourceFormat where
  | json | yaml
deriving DecidableEq, Repr

namespace SourceFormat

/-- What stands behind the last point of a file name; a point at its start does not count. -/
def extension? (path : String) : Option String :=
  let name := (path.toList.reverse.takeWhile (· ≠ '/')).reverse
  match (name.drop 1).reverse.dropWhile (· ≠ '.') with
  | [] => none
  | _ => some (String.ofList (name.reverse.takeWhile (· ≠ '.')).reverse)

/-- The format of a file. -/
def ofPath (path : String) : SourceFormat :=
  if (extension? path).any fun e => asciiLower e == "json" then json else yaml

/-- Reads a text as a document. -/
def read : SourceFormat → String → Except String Json
  | json, text => Json.parse text
  | yaml, text => Yaml.parse text

end SourceFormat

/-- The document that a text holds; `source` tells where the text comes from. -/
def readSource (format : SourceFormat) (source text : String) : Except ContractError Json :=
  (format.read text).mapError (.load source)

end ApiContract
