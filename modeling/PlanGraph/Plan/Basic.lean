import PlanGraph.Plan.Pattern
import PlanGraph.Plan.Prefixes

/-! Evaluation plans: for every triple pattern of a query, the paths that reach it from seeds, and
the cycles that were found on the way. -/

set_option autoImplicit false
namespace PlanGraph

structure PathStep where
  property : Iri
  type : Iri
deriving DecidableEq, Repr

structure PlannedCycle where
  id : String
  steps : List PathStep
deriving DecidableEq, Repr

/-- A path from seeds. The order of the seeds matters. -/
structure PlannedPath where
  steps : List PathStep
  seeds : List Iri
  check : Option Bool
deriving DecidableEq, Repr

structure PlanEntry where
  context : String
  pattern : TriplePattern
  check : Option Bool
  cycles : List PlannedCycle
  paths : List PlannedPath
deriving DecidableEq, Repr

structure Plan where
  prefixes : Prefixes
  entries : List PlanEntry
deriving DecidableEq

/-- The type that a path starts from: that of its first step, or the object of the pattern when
seeds are given and no step is. Paths without a starting type are left out. -/
def PlannedPath.startingType? (path : PlannedPath) (pattern : TriplePattern) : Option Iri :=
  match path.steps with
  | step :: _ => some step.type
  | [] => if path.seeds.isEmpty then none else pattern.object.iri?

end PlanGraph
