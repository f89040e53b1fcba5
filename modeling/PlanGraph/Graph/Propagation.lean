import PlanGraph.Graph.Basic
import PlanGraph.Roots

/-! Propagation of asserted types: steps beside patterns about roots expect the subtypes of the
types asserted there, cycles are anchored at such steps, and cycles without anchor are removed. All
of it happens in the graph at hand, one step and one cycle after another. -/

set_option autoImplicit false
namespace PlanGraph

/-- A graph while its steps are visited, with the new types of the steps that took part so far. -/
@[ext]
structure Widening where
  graph : Graph
  widened : List (StepId × OrderedSet Iri)

namespace Graph

/-- A step is eligible if patterns are near it, and all of them have a root as their subject. -/
def isEligible (graph : Graph) (roots : Roots) (step : Step) : Bool :=
  let near := graph.forest.nearPatterns step
  !near.isEmpty && near.elements.all fun id =>
    (graph.pattern? id).any fun pattern => roots.contains pattern.subject

def assertedNear (graph : Graph) (step : Step) : List Iri :=
  ((graph.forest.nearPatterns step).elements.filterMap fun id =>
    (graph.pattern? id).bind TriplePattern.assertedType?).filter step.types.contains

def widenedTypes (graph : Graph) (hierarchy : Hierarchy) (step : Step) :
    Except UnknownType (OrderedSet Iri) :=
  (hierarchy.subtypesOfAll (graph.assertedNear step)).map step.types.union

/-- The new types of a step, if it takes part. A step that expects nothing is passed over. -/
def widenedTypes? (graph : Graph) (hierarchy : Hierarchy) (roots : Roots) (step : Step) :
    Except UnknownType (Option (OrderedSet Iri)) :=
  if !step.types.isEmpty && graph.isEligible roots step then
    (graph.widenedTypes hierarchy step).map some
  else .ok none

def setTypes (graph : Graph) (id : StepId) (types : OrderedSet Iri) : Graph :=
  { graph with forest := graph.forest.modifyStep id fun step => { step with types } }

def startCycle (graph : Graph) (cycle : CycleId) (id : StepId) : Graph :=
  { graph with
    forest := graph.forest.modifyStep id fun step =>
      { step with cycleStarts := step.cycleStarts.insert cycle } }

def removeCycle (graph : Graph) (id : CycleId) : Graph :=
  if graph.cycles.contains id then
    { graph with
      cycles := graph.cycles.filter fun entry => entry.1 ≠ id
      forest :=
        { trees := graph.forest.trees.map fun tree => { tree with cycles := tree.cycles.erase id }
          steps := graph.forest.steps.map fun step =>
            { step with cycleStarts := step.cycleStarts.erase id } } }
  else graph

end Graph

def Widening.visit (hierarchy : Hierarchy) (roots : Roots) (state : Widening) (id : StepId) :
    Except UnknownType Widening :=
  match state.graph.forest.steps[id]? with
  | none => .ok state
  | some step =>
    (state.graph.widenedTypes? hierarchy roots step).map fun
      | none => state
      | some types => ⟨state.graph.setTypes id types, state.widened ++ [(id, types)]⟩

namespace Graph

def widen (graph : Graph) (hierarchy : Hierarchy) (roots : Roots) : Except UnknownType Widening :=
  (List.range graph.forest.steps.length).foldlM (Widening.visit hierarchy roots) ⟨graph, []⟩

def anchorTypes (graph : Graph) (hierarchy : Hierarchy) :
    Except UnknownType (List (CycleId × OrderedSet Iri)) :=
  graph.cycles.entries.mapM fun (id, cycle) =>
    (hierarchy.subtypesOfAll cycle.types.elements).map (id, ·)

/-- Starts a cycle at the widened steps that share a type with it. Without such a step the cycle is
put on the list of those to remove. -/
def anchorCycle (widened : List (StepId × OrderedSet Iri)) (state : Graph × List CycleId)
    (anchor : CycleId × OrderedSet Iri) : Graph × List CycleId :=
  let starts := (widened.filter fun entry => entry.2.meets anchor.2).map (·.1)
  if starts.isEmpty then (state.1, state.2 ++ [anchor.1])
  else (starts.foldl (startCycle · anchor.1 ·) state.1, state.2)

def propagate (graph : Graph) (hierarchy : Hierarchy) (roots : Roots) :
    Except UnknownType Graph := do
  let widening ← graph.widen hierarchy roots
  let anchors ← widening.graph.anchorTypes hierarchy
  let (anchored, pruned) := anchors.foldl (anchorCycle widening.widened) (widening.graph, [])
  return pruned.foldl removeCycle anchored

end Graph
end PlanGraph
