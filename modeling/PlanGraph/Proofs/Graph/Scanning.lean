import PlanGraph.Graph.Forest

/-! Growing a forest without tables. Trees and steps are looked for in the forest itself, which is what the
tables of a nursery come to. -/

set_option autoImplicit false
namespace PlanGraph.Forest

def child? (forest : Forest) (node : ChainNode) (label : StepLabel) : Option StepId :=
  (forest.childrenOf node).find? fun id => forest.steps[id]?.any (·.label == label)

def plant (forest : Forest) (fingerprint : Fingerprint) : Forest × TreeId :=
  match forest.treeWith? fingerprint with
  | some id => (forest, id)
  | none =>
    ({ forest with trees := forest.trees ++ [.planted fingerprint] }, forest.trees.length)

def grow (forest : Forest) (node : ChainNode) (label : StepLabel) : Forest × StepId :=
  match forest.child? node label with
  | some id => (forest, id)
  | none =>
    let id := forest.steps.length
    (addChild { forest with steps := forest.steps ++ [.grown node label] } node id, id)

def descend (forest : Forest) (node : ChainNode) : List (StepLabel × Iri) → Forest × ChainNode
  | [] => (forest, node)
  | (label, type) :: rest =>
    let (forest, id) := forest.grow node label
    (forest.modifyStep id (·.expect type)).descend (.step id) rest

/-- Takes a path of a pattern into the forest. The pattern is attached where the path ends, and a
type assertion is checked there if the path asks for it. -/
def includePath (forest : Forest) (patternId : PatternId) (pattern : TriplePattern)
    (cycles : List CycleId) (path : PlannedPath) (fromType : Iri) : Forest :=
  let (forest, tree) := forest.plant (PlanGraph.fingerprint path.seeds)
  let forest := forest.modifyTree tree (·.enterPath path fromType cycles)
  let asserted := pattern.assertedType?
  let (forest, last) := forest.descend (.tree tree) (labelWord asserted path.steps)
  let forest := forest.addPattern last patternId
  if asserted.isSome ∧ path.check = some true then forest.requireCheck last else forest

end PlanGraph.Forest
