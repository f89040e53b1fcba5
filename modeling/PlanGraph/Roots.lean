import PlanGraph.OrderedSet
import PlanGraph.Plan.Pattern

/-! The roots of a query: the variables and IRIs that its patterns start from. -/

set_option autoImplicit false
namespace PlanGraph

structure Roots where
  variableNames : OrderedSet String
  iris : OrderedSet Iri
deriving DecidableEq

namespace Roots

def ofTerms (terms : List PatternTerm) : Roots :=
  ⟨.ofList (terms.filterMap PatternTerm.variable?), .ofList (terms.filterMap PatternTerm.iri?)⟩

def isEmpty (roots : Roots) : Bool := roots.variableNames.isEmpty && roots.iris.isEmpty

def contains (roots : Roots) : PatternTerm → Bool
  | .variable name => roots.variableNames.contains name
  | .fixed (.iri name) => roots.iris.contains name
  | _ => false

/-- The subjects that are no objects; if no variable or IRI is left, all subjects. -/
def ofPatterns (patterns : List TriplePattern) : Roots :=
  let subjects := patterns.map TriplePattern.subject
  let objects := patterns.map TriplePattern.object
  let roots := ofTerms (subjects.filter fun subject => !objects.contains subject)
  if roots.isEmpty then ofTerms subjects else roots

end Roots
end PlanGraph
