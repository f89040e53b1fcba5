import PlanGraph.Graph.CycleBook

/-! Plan graphs: search spaces, their patterns, the search forest and the described cycles. -/

set_option autoImplicit false
namespace PlanGraph

structure SearchSpace where
  context : String
  pattern : PatternId
deriving DecidableEq, Repr

structure PatternNode where
  pattern : TriplePattern
  check : Option Bool
deriving DecidableEq, Repr

structure Graph where
  prefixes : Prefixes
  spaces : List SearchSpace
  patterns : List PatternNode
  forest : Forest
  cycles : OrderedMap CycleId Cycle
deriving DecidableEq

structure PatternRegistry where
  numbers : List (TriplePattern × PatternId)
  nodes : List PatternNode
deriving DecidableEq

namespace PatternRegistry

def empty : PatternRegistry := ⟨[], []⟩

/-- Equal patterns share a node, which keeps the first hint on checking that it gets. -/
def register (registry : PatternRegistry) (pattern : TriplePattern) (check : Option Bool) :
    PatternRegistry × PatternId :=
  match registry.numbers.lookup pattern with
  | some id =>
    let nodes := registry.nodes.modify id fun node => { node with check := node.check <|> check }
    ({ registry with nodes }, id)
  | none =>
    let id := registry.nodes.length
    (⟨registry.numbers ++ [(pattern, id)], registry.nodes ++ [⟨pattern, check⟩]⟩, id)

end PatternRegistry

namespace Graph

def pattern? (graph : Graph) (id : PatternId) : Option TriplePattern :=
  graph.patterns[id]?.map PatternNode.pattern

def variableNames (graph : Graph) : OrderedSet String :=
  .ofList <| graph.patterns.flatMap fun node =>
    node.pattern.subject.variable?.toList ++ node.pattern.object.variable?.toList

def treeWithSeeds? (graph : Graph) (seeds : List Iri) : Option TreeId :=
  graph.forest.treeWith? (fingerprint seeds)

end Graph
end PlanGraph
