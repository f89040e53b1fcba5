import PlanGraph.Graph.Basic

/-! The outline of a graph as readable lines, with IRIs in compact form. -/

set_option autoImplicit false
namespace PlanGraph

def patternName (id : PatternId) : String := "tp" ++ toString id

def boolText (value : Bool) : String := if value then "true" else "false"

def separated (items : List String) : String := String.intercalate ", " items

def indentation (depth : Nat) : String := String.join (List.replicate depth "  ")

def checkSuffix (check : Option Bool) : String :=
  match check with
  | some value => " checkType: " ++ boolText value
  | none => ""

def listed (heading : String) (items : List String) : String :=
  if items.isEmpty then "" else heading ++ separated items

namespace Graph

def iriName (graph : Graph) (iri : Iri) : String :=
  (graph.prefixes.compact? iri).getD (Rdf.iriText iri)

def termName (graph : Graph) (term : PatternTerm) : String :=
  match term.iri? with
  | some iri => graph.iriName iri
  | none => term.text

def predicateName (graph : Graph) : Predicate → String
  | .iri name => graph.iriName name
  | .variable name => variableText name

def iriNames (graph : Graph) (iris : OrderedSet Iri) : String :=
  separated (iris.elements.map graph.iriName)

def spaceLine (space : SearchSpace) : String :=
  "SearchSpace " ++ space.context ++ " definedBy " ++ patternName space.pattern

def patternLine (graph : Graph) (id : PatternId) (node : PatternNode) : String :=
  "TriplePattern " ++ patternName id ++ ": " ++ graph.termName node.pattern.subject ++ " "
    ++ graph.predicateName node.pattern.predicate ++ " " ++ graph.termName node.pattern.object
    ++ checkSuffix node.check

def stepLine (graph : Graph) (depth : Nat) (step : Step) : String :=
  indentation depth ++ (step.label.property?.map graph.iriName).getD "#end"
    ++ " [" ++ graph.iriNames step.types ++ "]"
    ++ listed " byPattern: " (step.patterns.elements.map patternName)
    ++ checkSuffix step.check
    ++ listed " isCycleStartOf: " step.cycleStarts.elements

/-- The lines of a step and of the steps below it. No chain of steps is longer than the number of
steps, which bounds the descent. -/
def stepLines (graph : Graph) (depth : Nat) (id : StepId) : Nat → List String
  | 0 => []
  | fuel + 1 =>
    match graph.forest.steps[id]? with
    | none => []
    | some step =>
      graph.stepLine depth step ::
        step.children.flatMap fun child => graph.stepLines (depth + 1) child fuel

def optionalLine (heading : String) (items : List String) : List String :=
  if items.isEmpty then [] else [heading ++ separated items]

def treeHeader (graph : Graph) (tree : SearchTree) : List String :=
  ["SearchTree " ++ tree.fingerprint ++ " length: " ++ toString tree.length,
    "  fromType: " ++ graph.iriNames tree.fromTypes]
    ++ optionalLine "  hasSeed: " (tree.seeds.elements.map graph.iriName)
    ++ optionalLine "  goesThroughCycle: " tree.cycles.elements
    ++ optionalLine "  byPattern: " (tree.patterns.elements.map patternName)

def treeLines (graph : Graph) (tree : SearchTree) : List String :=
  graph.treeHeader tree ++
    tree.children.flatMap fun child => graph.stepLines 1 child graph.forest.steps.length

def cycleStepLines (graph : Graph) (depth : Nat) : List PathStep → List String
  | [] => []
  | step :: rest =>
    (indentation depth ++ graph.iriName step.property ++ " [" ++ graph.iriName step.type ++ "]")
      :: graph.cycleStepLines (depth + 1) rest

def cycleLines (graph : Graph) (id : CycleId) (cycle : Cycle) : List String :=
  ("Cycle " ++ id ++ " [" ++ graph.iriNames cycle.types ++ "]")
    :: graph.cycleStepLines 1 cycle.steps

def outlineLines (graph : Graph) : List String :=
  graph.spaces.map spaceLine
    ++ graph.patterns.zipIdx.map (fun (node, id) => graph.patternLine id node)
    ++ graph.forest.trees.flatMap graph.treeLines
    ++ graph.cycles.entries.flatMap fun (id, cycle) => graph.cycleLines id cycle

def outline (graph : Graph) : String := String.join (graph.outlineLines.map (· ++ "\n"))

end Graph
end PlanGraph
