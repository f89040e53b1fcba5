import PlanGraph.Graph.Basic
import PlanGraph.Graph.Vocabulary

/-! The description of a graph in RDF quads. Spaces, variables and patterns are described in the
default graph, trees and steps in a graph of their own, and every cycle in the graph that its own
node names. -/

set_option autoImplicit false
namespace PlanGraph
open Rdf (Quad Term Literal)
open Rdf.Vocabulary (rdfType rdfsLabel xsdBoolean xsdInteger)

inductive Node
  | space (index : Nat)
  | variable (name : String)
  | pattern (id : PatternId)
  | literal (index : Nat)
  | tree (fingerprint : Fingerprint)
  | step (id : StepId)
  | cycle (index : Nat)
  | cycleStep (index position : Nat)
deriving DecidableEq, Repr

def Node.label : Node → String
  | .space index => "space_" ++ toString index
  | .variable name => "var_" ++ name
  | .pattern id => "tp_" ++ toString id
  | .literal index => "lit_" ++ toString index
  | .tree fingerprint => "tree_" ++ fingerprint
  | .step id => "step_" ++ toString id
  | .cycle index => "cycle_" ++ toString index
  | .cycleStep index position => "cycle_" ++ toString index ++ "_" ++ toString position

def Node.term (node : Node) : Term := .blank node.label

def textLiteral (text : String) : Term := .literal (.simple text)

def boolLiteral (value : Bool) : Term :=
  .literal (.typed (if value then "true" else "false") xsdBoolean)

def numberLiteral (value : Nat) : Term := .literal (.typed (toString value) xsdInteger)

def Node.statements (node : Node) (graph : Option Term) (values : List (Iri × Term)) :
    List Quad :=
  values.map fun (property, value) => ⟨node.term, property, value, graph⟩

def each {α : Type} (property : Iri) (value : α → Term) (items : List α) : List (Iri × Term) :=
  items.map fun item => (property, value item)

def ofPatternTerm? : PatternTerm → Option Term
  | .variable name => some (Node.variable name).term
  | .fixed (.blank _) => none
  | .fixed term => some term

def ofPredicate : Predicate → Term
  | .iri name => .iri name
  | .variable name => (Node.variable name).term

def PatternNode.literal? (node : PatternNode) : Option Literal :=
  match node.pattern.object with
  | .fixed (.literal value) => some value
  | _ => none

namespace Graph

def treesGraph : Option Term := some (.iri Vocabulary.trees)

def describeSpace (space : SearchSpace) (index : Nat) : List Quad :=
  (Node.space index).statements none
    [(rdfType, .iri Vocabulary.searchSpace),
      (Vocabulary.definedBy, (Node.pattern space.pattern).term)]

def describeVariable (name : String) : List Quad :=
  (Node.variable name).statements none
    [(rdfType, .iri Vocabulary.queryVariable), (rdfsLabel, textLiteral (variableText name))]

def literals (graph : Graph) : List Literal :=
  (graph.patterns.filterMap PatternNode.literal?).eraseDups

/-- The node of a literal, which equal literals share. -/
def literalNode (graph : Graph) (literal : Literal) : Node :=
  .literal (graph.literals.idxOf literal)

def describeLiteral (graph : Graph) (literal : Literal) : List Quad :=
  (graph.literalNode literal).statements none
    [(rdfType, .iri Vocabulary.literal), (Vocabulary.value, .literal literal)]

def objectNode? (graph : Graph) (node : PatternNode) : Option Term :=
  match node.literal? with
  | some literal => some (graph.literalNode literal).term
  | none => ofPatternTerm? node.pattern.object

/-- Describes a pattern. A literal that no earlier pattern has is described before it is used. -/
def describePattern (graph : Graph) (earlier : List PatternNode) (node : PatternNode)
    (id : PatternId) : List Quad :=
  let self := Node.pattern id
  let newLiteral := node.literal?.filter fun literal =>
    !(earlier.filterMap PatternNode.literal?).contains literal
  self.statements none
      ([(rdfType, .iri Vocabulary.triplePattern), (rdfsLabel, textLiteral self.label)]
        ++ each Vocabulary.subject (·) (ofPatternTerm? node.pattern.subject).toList
        ++ [(Vocabulary.predicate, ofPredicate node.pattern.predicate)])
    ++ newLiteral.toList.flatMap graph.describeLiteral
    ++ self.statements none
      (each Vocabulary.object (·) (graph.objectNode? node).toList
        ++ each Vocabulary.checkType boolLiteral node.check.toList)

def describePatterns (graph : Graph) : List Quad :=
  graph.patterns.zipIdx.flatMap fun (node, id) =>
    graph.describePattern (graph.patterns.take id) node id

def cycleNode? (graph : Graph) (id : CycleId) : Option Node :=
  (graph.cycles.entries.findIdx? fun entry => entry.1 == id).map Node.cycle

def describeTree (graph : Graph) (tree : SearchTree) : List Quad :=
  let self := Node.tree tree.fingerprint
  self.statements treesGraph
      ([(rdfType, .iri Vocabulary.searchTree)]
        ++ each Vocabulary.fromType .iri tree.fromTypes.elements
        ++ each Vocabulary.hasSeed .iri tree.seeds.elements
        ++ [(Vocabulary.length, numberLiteral tree.length)]
        ++ each Vocabulary.byPattern (fun id => (Node.pattern id).term) tree.patterns.elements
        ++ each Vocabulary.next (fun id => (Node.step id).term) tree.children)
    ++ (tree.cycles.elements.filterMap graph.cycleNode?).map fun cycle =>
      ⟨self.term, Vocabulary.goesThroughCycle, cycle.term, some cycle.term⟩

def describeStep (graph : Graph) (step : Step) (id : StepId) : List Quad :=
  (Node.step id).statements treesGraph
    (each Vocabulary.onProperty .iri step.label.property?.toList
      ++ each Vocabulary.expectedType .iri step.types.elements
      ++ each Vocabulary.byPattern (fun id => (Node.pattern id).term) step.patterns.elements
      ++ each Vocabulary.checkType boolLiteral step.check.toList
      ++ each Vocabulary.isCycleStartOf Node.term
        (step.cycleStarts.elements.filterMap graph.cycleNode?)
      ++ each Vocabulary.next (fun id => (Node.step id).term) step.children)

def describeCycleSteps (index : Nat) (previous : Node) (position : Nat) :
    List PathStep → List Quad
  | [] => []
  | step :: rest =>
    let graph := some (Node.cycle index).term
    let self := Node.cycleStep index position
    previous.statements graph [(Vocabulary.next, self.term)]
      ++ self.statements graph
        [(Vocabulary.onProperty, .iri step.property), (Vocabulary.expectedType, .iri step.type)]
      ++ describeCycleSteps index self (position + 1) rest

def describeCycle (id : CycleId) (cycle : Cycle) (index : Nat) : List Quad :=
  let self := Node.cycle index
  self.statements (some self.term)
      ([(rdfType, .iri Vocabulary.cycle), (rdfsLabel, textLiteral id)]
        ++ each Vocabulary.expectedType .iri cycle.types.elements)
    ++ describeCycleSteps index self 0 cycle.steps

def quads (graph : Graph) : List Quad :=
  graph.spaces.zipIdx.flatMap (fun (space, index) => describeSpace space index)
    ++ graph.variableNames.elements.flatMap describeVariable
    ++ graph.describePatterns
    ++ graph.forest.trees.flatMap graph.describeTree
    ++ graph.forest.steps.zipIdx.flatMap (fun (step, id) => graph.describeStep step id)
    ++ graph.cycles.entries.zipIdx.flatMap fun ((id, cycle), index) => describeCycle id cycle index

end Graph
end PlanGraph
