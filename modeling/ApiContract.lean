import ApiContract.Definition.Writing
import ApiContract.Main
import ApiContract.Proofs.Json.Fields
import ApiContract.Proofs.Json.Parts
import ApiContract.Proofs.Json.Pointers
import ApiContract.Proofs.Schema.Assertions
import ApiContract.Proofs.Schema.Passing
import ApiContract.Proofs.Query.Taking
import ApiContract.Proofs.Schema.Adequacy
import ApiContract.Proofs.Json.Frame
import ApiContract.Proofs.Preparation.Composing
import ApiContract.Proofs.Preparation.Keeping
import ApiContract.Proofs.Preparation.Merging
import ApiContract.Proofs.Preparation.Flattening
import ApiContract.Proofs.Preparation.Prepared
import ApiContract.Proofs.Route.Agreement
import ApiContract.Proofs.Route.Compiling
import ApiContract.Proofs.Route.Declaring
import ApiContract.Proofs.Route.Naming
import ApiContract.Proofs.Route.Separation
import ApiContract.Proofs.Schema.Searching
import ApiContract.Proofs.Schema.Following
import ApiContract.Proofs.Preparation.Replacing
import ApiContract.Proofs.Preparation.Normalizing
import ApiContract.Proofs.Preparation.Separable
import ApiContract.Proofs.Preparation.Lasting
import ApiContract.Proofs.Preparation.Alternatives
import ApiContract.Proofs.Preparation.Closing
import ApiContract.Proofs.Preparation.Upheld
import ApiContract.Proofs.Query.Reporting
import ApiContract.Proofs.Route.Leniency
import ApiContract.Proofs.Schema.Straying
import ApiContract.Proofs.Schema.Locating
import ApiContract.Proofs.Schema.Pointing
import ApiContract.Proofs.Schema.Spelling
import ApiContract.Proofs.Query.Dereferencing
import ApiContract.Proofs.Route.Recognition
import ApiContract.Proofs.Route.Tables
import ApiContract.Proofs.Query.Nesting
import ApiContract.Proofs.Route.Coding
import ApiContract.Proofs.Route.LetterCase
import ApiContract.Proofs.Query.Flags
import ApiContract.Proofs.Number.Numerals
import ApiContract.Proofs.Definition.Lookup
import ApiContract.Proofs.Preparation.Covering
import ApiContract.Proofs.Preparation.Combining
import ApiContract.Proofs.Preparation.Unlisted
import ApiContract.Proofs.Route.Failing
import ApiContract.Proofs.Route.Culprits
import ApiContract.Proofs.Date.Moments
import ApiContract.Proofs.Schema.Running
import ApiContract.Proofs.Query.Inlining
import ApiContract.Proofs.Preparation.Ending
import ApiContract.Proofs.Date.Conversion
import ApiContract.Proofs.Query.Surviving
import ApiContract.Proofs.Definition.Settling
import ApiContract.Proofs.Yaml.Loading
