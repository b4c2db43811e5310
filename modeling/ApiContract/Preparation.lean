import ApiContract.Options
import ApiContract.Preparation.Closure
import ApiContract.Preparation.Composition
import ApiContract.Preparation.Dialect
import ApiContract.Preparation.Discriminator

/-!
# Prepared documents

`prepare` makes a contract ready to be compiled: its schemas are written as JSON Schema does,
compositions are flat, named schemas are closed if the options say so, and alternatives with a
discriminator have become cases.
-/

namespace ApiContract

/-- A document ready to be compiled. -/
def prepare (options : Options) (document : Json) : Json :=
  let flat := flattenCompositions (normalizeDialect document)
  introduceCases (if options.closeSchemas then closeComponentSchemas flat else flat)

end ApiContract
