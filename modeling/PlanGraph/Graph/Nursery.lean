import PlanGraph.Graph.Forest

/-! Forests under construction. Tables know the trees of fingerprints, and the steps below nodes by their
labels. -/

set_option autoImplicit false
namespace PlanGraph

/-- A forest with the numbers of its trees and steps. -/
structure Nursery where
  forest : Forest
  trees : List (Fingerprint × TreeId)
  steps : List ((ChainNode × StepLabel) × StepId)
deriving DecidableEq

namespace Nursery

def empty : Nursery := ⟨.empty, [], []⟩

def onForest (nursery : Nursery) (change : Forest → Forest) : Nursery :=
  { nursery with forest := change nursery.forest }

def plant (nursery : Nursery) (fingerprint : Fingerprint) : Nursery × TreeId :=
  match nursery.trees.lookup fingerprint with
  | some id => (nursery, id)
  | none =>
    let id := nursery.forest.trees.length
    ({ nursery with
        forest := { nursery.forest with trees := nursery.forest.trees ++ [.planted fingerprint] }
        trees := nursery.trees ++ [(fingerprint, id)] }, id)

def grow (nursery : Nursery) (node : ChainNode) (label : StepLabel) : Nursery × StepId :=
  match nursery.steps.lookup (node, label) with
  | some id => (nursery, id)
  | none =>
    let id := nursery.forest.steps.length
    let forest : Forest := { nursery.forest with steps := nursery.forest.steps ++ [.grown node label] }
    ({ nursery with
        forest := forest.addChild node id
        steps := nursery.steps ++ [((node, label), id)] }, id)

def descend (nursery : Nursery) (node : ChainNode) : List (StepLabel × Iri) → Nursery × ChainNode
  | [] => (nursery, node)
  | (label, type) :: rest =>
    let (nursery, id) := nursery.grow node label
    (nursery.onForest (·.modifyStep id (·.expect type))).descend (.step id) rest

/-- Takes a path of a pattern into the forest. The pattern is attached where the path ends, and a
type assertion is checked there if the path asks for it. -/
def includePath (nursery : Nursery) (patternId : PatternId) (pattern : TriplePattern)
    (cycles : List CycleId) (path : PlannedPath) (fromType : Iri) : Nursery :=
  let (nursery, tree) := nursery.plant (PlanGraph.fingerprint path.seeds)
  let nursery := nursery.onForest (·.modifyTree tree (·.enterPath path fromType cycles))
  let asserted := pattern.assertedType?
  let (nursery, last) := nursery.descend (.tree tree) (labelWord asserted path.steps)
  nursery.onForest fun forest =>
    let forest := forest.addPattern last patternId
    if asserted.isSome ∧ path.check = some true then forest.requireCheck last else forest

end Nursery
end PlanGraph
