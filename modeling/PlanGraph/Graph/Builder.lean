import PlanGraph.Graph.Basic
import PlanGraph.Graph.Nursery

/-! Building the initial graph of a plan, entry by entry. -/

set_option autoImplicit false
namespace PlanGraph

structure Builder where
  prefixes : Prefixes
  spaces : List SearchSpace
  registry : PatternRegistry
  nursery : Nursery
  book : CycleBook
deriving DecidableEq

/-- The paths that have a starting type, with that type. -/
def PlanEntry.includedPaths (entry : PlanEntry) : List (PlannedPath × Iri) :=
  entry.paths.filterMap fun path => (path.startingType? entry.pattern).map (path, ·)

/-- The hint on checking concerns patterns that ask for a type only. -/
def PlanEntry.checkHint (entry : PlanEntry) : Option Bool :=
  if entry.pattern.isTypePattern then entry.check else none

namespace Builder

def start (prefixes : Prefixes) : Builder := ⟨prefixes, [], .empty, .empty, .empty⟩

def graph (builder : Builder) : Graph :=
  ⟨builder.prefixes, builder.spaces, builder.registry.nodes, builder.nursery.forest,
    builder.book.cycles⟩

def openSpace (builder : Builder) (entry : PlanEntry) : Builder × PatternId :=
  let (registry, id) := builder.registry.register entry.pattern entry.checkHint
  ({ builder with registry, spaces := builder.spaces ++ [⟨entry.context, id⟩] }, id)

def cyclesOf (hierarchy : Hierarchy) (builder : Builder) (entry : PlanEntry) :
    Option (List CycleId) → Builder × Except UnknownType (List CycleId)
  | some cycles => (builder, .ok cycles)
  | none =>
    let (book, answer) := builder.book.describeAll hierarchy entry.cycles
    ({ builder with book }, answer)

def addPaths (hierarchy : Hierarchy) (entry : PlanEntry) (pattern : PatternId) (builder : Builder)
    (described : Option (List CycleId)) : List PlannedPath → Builder × Option UnknownType
  | [] => (builder, none)
  | path :: rest =>
    match path.startingType? entry.pattern with
    | none => builder.addPaths hierarchy entry pattern described rest
    | some type =>
      match builder.cyclesOf hierarchy entry described with
      | (builder, .error error) => (builder, some error)
      | (builder, .ok cycles) =>
        let nursery := builder.nursery.includePath pattern entry.pattern cycles path type
        { builder with nursery }.addPaths hierarchy entry pattern (some cycles) rest

/-- Takes an entry into the graph. Its cycles are described when its first path is included. -/
def addEntry (hierarchy : Hierarchy) (builder : Builder) (entry : PlanEntry) :
    Builder × Option UnknownType :=
  let (builder, pattern) := builder.openSpace entry
  builder.addPaths hierarchy entry pattern none entry.paths

def addEntries (hierarchy : Hierarchy) (builder : Builder) :
    List PlanEntry → Except UnknownType Builder
  | [] => .ok builder
  | entry :: rest =>
    match builder.addEntry hierarchy entry with
    | (_, some error) => .error error
    | (builder, none) => builder.addEntries hierarchy rest

end Builder

def Plan.initialGraph (plan : Plan) (hierarchy : Hierarchy) : Except UnknownType Graph :=
  ((Builder.start plan.prefixes).addEntries hierarchy plan.entries).map Builder.graph

end PlanGraph
