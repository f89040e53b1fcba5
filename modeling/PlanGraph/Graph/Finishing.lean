import PlanGraph.Graph.Basic

/-! The last touches to a graph: starting types are narrowed to the most specific ones, and IRIs
that a path reaches in one step become seeds. -/

set_option autoImplicit false
namespace PlanGraph

/-- The types of a set without a proper subtype in it. If circles leave none, all are kept. -/
def Hierarchy.mostSpecific (hierarchy : Hierarchy) (types : OrderedSet Iri) :
    Except UnknownType (OrderedSet Iri) :=
  match types.elements.find? fun type => !hierarchy.contains type with
  | some unknown => .error ⟨unknown⟩
  | none =>
    let specific := types.filter fun type =>
      let below := hierarchy.below type
      !types.elements.any fun other => other != type && below.contains other
    .ok (if specific.isEmpty then types else specific)

namespace Graph

/-- Narrows trees in turn until a type is unknown; the trees from there on stay as they are. -/
def narrowTrees (hierarchy : Hierarchy) : List SearchTree → List SearchTree × Option UnknownType
  | [] => ([], none)
  | tree :: rest =>
    match hierarchy.mostSpecific tree.fromTypes with
    | .error error => (tree :: rest, some error)
    | .ok fromTypes =>
      let (narrowed, error) := narrowTrees hierarchy rest
      ({ tree with fromTypes } :: narrowed, error)

def subjectIris (patterns : List PatternNode) (step : Step) : List Iri :=
  step.patterns.elements.filterMap fun id =>
    patterns[id]?.bind fun node => node.pattern.subject.iri?

/-- The IRI of a pattern at a step right below a tree, which becomes a seed of that tree. -/
structure Promotion where
  tree : TreeId
  step : StepId
  seed : Iri

def promotions (graph : Graph) : List Promotion :=
  graph.forest.trees.zipIdx.flatMap fun (tree, id) => tree.children.flatMap fun child =>
    (graph.forest.steps[child]?.map (subjectIris graph.patterns)).getD [] |>.map (⟨id, child, ·⟩)

def promote (graph : Graph) (promotion : Promotion) : Graph :=
  let forest := graph.forest.modifyTree promotion.tree fun tree =>
    { tree with seeds := tree.seeds.insert promotion.seed }
  { graph with
    forest := forest.modifyStep promotion.step fun step => { step with cycleStarts := ∅ } }

def promoteSeeds (graph : Graph) : Graph := graph.promotions.foldl promote graph

/-- Narrows and promotes. After an error the trees before the failing one stay narrowed. -/
def finish (graph : Graph) (hierarchy : Hierarchy) : Graph × Option UnknownType :=
  let (trees, error) := narrowTrees hierarchy graph.forest.trees
  let narrowed := { graph with forest := { graph.forest with trees } }
  match error with
  | some error => (narrowed, some error)
  | none => (narrowed.promoteSeeds, none)

end Graph
end PlanGraph
