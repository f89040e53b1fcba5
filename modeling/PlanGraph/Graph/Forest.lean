import PlanGraph.Graph.Fingerprint
import PlanGraph.OrderedSet
import PlanGraph.Plan.Basic

/-! Search forests. Paths with the same seeds share a tree, and paths with the same beginning share
the steps of that beginning. -/

set_option autoImplicit false
namespace PlanGraph

abbrev PatternId := Nat
abbrev TreeId := Nat
abbrev StepId := Nat
abbrev CycleId := String

inductive ChainNode
  | tree (id : TreeId)
  | step (id : StepId)
deriving DecidableEq, Repr

inductive StepLabel
  | property (name : Iri)
  | leaf
deriving DecidableEq, Repr

def StepLabel.property? : StepLabel → Option Iri
  | .property name => some name
  | .leaf => none

structure SearchTree where
  fingerprint : Fingerprint
  fromTypes : OrderedSet Iri
  seeds : OrderedSet Iri
  length : Nat
  cycles : OrderedSet CycleId
  patterns : OrderedSet PatternId
  children : List StepId
deriving DecidableEq

structure Step where
  parent : ChainNode
  label : StepLabel
  types : OrderedSet Iri
  patterns : OrderedSet PatternId
  check : Option Bool
  cycleStarts : OrderedSet CycleId
  children : List StepId
deriving DecidableEq

/-- Trees and steps in the order of their creation; their places are their numbers. -/
structure Forest where
  trees : List SearchTree
  steps : List Step
deriving DecidableEq

def SearchTree.planted (fingerprint : Fingerprint) : SearchTree := ⟨fingerprint, ∅, ∅, 0, ∅, ∅, []⟩

def Step.grown (parent : ChainNode) (label : StepLabel) : Step :=
  ⟨parent, label, ∅, ∅, none, ∅, []⟩

def SearchTree.enterPath (tree : SearchTree) (path : PlannedPath) (fromType : Iri)
    (cycles : List CycleId) : SearchTree :=
  { tree with
    fromTypes := tree.fromTypes.insert fromType
    seeds := tree.seeds.insertAll path.seeds
    cycles := tree.cycles.insertAll cycles
    length := tree.length + path.steps.length }

def Step.expect (step : Step) (type : Iri) : Step := { step with types := step.types.insert type }

/-- The labels of the steps along a path with the types they lead to. A type assertion ends in a
leaf of its own; otherwise the last step is the leaf. -/
def labelWord (asserted : Option Iri) : List PathStep → List (StepLabel × Iri)
  | [] => (asserted.map fun type => (.leaf, type)).toList
  | [last] =>
    match asserted with
    | some type => [(.property last.property, last.type), (.leaf, type)]
    | none => [(.leaf, last.type)]
  | step :: rest => (.property step.property, step.type) :: labelWord asserted rest

namespace Forest

def empty : Forest := ⟨[], []⟩

def treeWith? (forest : Forest) (fingerprint : Fingerprint) : Option TreeId :=
  forest.trees.findIdx? fun tree => tree.fingerprint == fingerprint

def modifyTree (forest : Forest) (id : TreeId) (change : SearchTree → SearchTree) : Forest :=
  { forest with trees := forest.trees.modify id change }

def modifyStep (forest : Forest) (id : StepId) (change : Step → Step) : Forest :=
  { forest with steps := forest.steps.modify id change }

def childrenOf (forest : Forest) : ChainNode → List StepId
  | .tree id => (forest.trees[id]?.map SearchTree.children).getD []
  | .step id => (forest.steps[id]?.map Step.children).getD []

def addChild (forest : Forest) (node : ChainNode) (child : StepId) : Forest :=
  match node with
  | .tree id => forest.modifyTree id fun tree => { tree with children := tree.children ++ [child] }
  | .step id => forest.modifyStep id fun step => { step with children := step.children ++ [child] }

def addPattern (forest : Forest) (node : ChainNode) (pattern : PatternId) : Forest :=
  match node with
  | .tree id =>
    forest.modifyTree id fun tree => { tree with patterns := tree.patterns.insert pattern }
  | .step id =>
    forest.modifyStep id fun step => { step with patterns := step.patterns.insert pattern }

def requireCheck (forest : Forest) : ChainNode → Forest
  | .tree _ => forest
  | .step id => forest.modifyStep id fun step => { step with check := some true }

/-- The patterns attached to a step or to one of its siblings. -/
def nearPatterns (forest : Forest) (step : Step) : OrderedSet PatternId :=
  (forest.childrenOf step.parent).foldl
    (fun found id => (forest.steps[id]?.map Step.patterns).elim found found.union) ∅

end Forest
end PlanGraph
