import PlanGraph.Graph.Builder
import PlanGraph.Graph.Finishing
import PlanGraph.Graph.Propagation

/-! Compiling a plan to its graph: building, propagation, finishing. -/

set_option autoImplicit false
namespace PlanGraph

def Plan.compile (plan : Plan) (hierarchy : Hierarchy) (roots : Roots) :
    Except UnknownType Graph := do
  let initial ← plan.initialGraph hierarchy
  let propagated ← initial.propagate hierarchy roots
  match propagated.finish hierarchy with
  | (graph, none) => .ok graph
  | (_, some error) => .error error

end PlanGraph
