import PlanGraph.Graph.Outline
import PlanGraph.Proofs.Graph.Passes
import PlanGraph.Proofs.Graph.Walks

/-! The outline of a graph. It is one record after the other, each on a line of its own, and the records of
a tree are those of the steps that the walk through it comes to. -/

set_option autoImplicit false
namespace PlanGraph

namespace Outline

def indented (level : Nat) (text : String) : String := String.ofList (List.replicate (2 * level) ' ') ++ text

def record (head : String) (fields : List String) : String := " ".intercalate (head :: fields)

def field (name : String) (items : List String) : List String :=
  if items = [] then [] else [name ++ ": " ++ ", ".intercalate items]

def checkField (check : Option Bool) : List String :=
  check.toList.map fun value => "checkType: " ++ toString value

def tag (id : PatternId) : String := "tp" ++ toString id

def spaceRow (space : SearchSpace) : String :=
  "SearchSpace " ++ space.context ++ " definedBy " ++ tag space.pattern

end Outline

open Outline

namespace Graph

/-- IRIs stand under their names in the outline, other terms as they are written in plans. -/
def shown (graph : Graph) : PatternTerm → String
  | .fixed (.iri iri) => graph.iriName iri
  | term => term.text

def shownPredicate (graph : Graph) : Predicate → String
  | .iri iri => graph.iriName iri
  | .variable name => "?" ++ name

def shownTypes (graph : Graph) (types : OrderedSet Iri) : String :=
  "[" ++ ", ".intercalate (types.elements.map graph.iriName) ++ "]"

def patternRow (graph : Graph) (id : PatternId) (node : PatternNode) : String :=
  record ("TriplePattern " ++ tag id ++ ":")
    ([graph.shown node.pattern.subject, graph.shownPredicate node.pattern.predicate,
      graph.shown node.pattern.object] ++ checkField node.check)

def headRows (graph : Graph) (tree : SearchTree) : List String :=
  record "SearchTree" [tree.fingerprint, "length: " ++ toString tree.length] ::
    (["fromType: " ++ ", ".intercalate (tree.fromTypes.elements.map graph.iriName)]
      ++ field "hasSeed" (tree.seeds.elements.map graph.iriName)
      ++ field "goesThroughCycle" tree.cycles.elements
      ++ field "byPattern" (tree.patterns.elements.map tag)).map (indented 1)

def stepRow (graph : Graph) (step : Step) : String :=
  let label :=
    match step.label with
    | .property property => graph.iriName property
    | .leaf => "#end"
  record label ([graph.shownTypes step.types] ++ field "byPattern" (step.patterns.elements.map tag)
    ++ checkField step.check ++ field "isCycleStartOf" step.cycleStarts.elements)

def visitRow (graph : Graph) (visit : Visit) : String :=
  indented visit.depth (graph.stepRow visit.step)

def treeRows (graph : Graph) (tree : SearchTree) (visits : List Visit) : List String :=
  graph.headRows tree ++ visits.map graph.visitRow

def cycleRows (graph : Graph) (id : CycleId) (cycle : Cycle) : List String :=
  record "Cycle" [id, graph.shownTypes cycle.types] :: cycle.steps.zipIdx.map fun (step, place) =>
    indented (place + 1) (record (graph.iriName step.property) ["[" ++ graph.iriName step.type ++ "]"])

def records (graph : Graph) (walks : List (List Visit)) : List String :=
  graph.spaces.map spaceRow
    ++ graph.patterns.zipIdx.map (fun (node, id) => graph.patternRow id node)
    ++ (List.zipWith graph.treeRows graph.forest.trees walks).flatten
    ++ graph.cycles.entries.flatMap fun (id, cycle) => graph.cycleRows id cycle

/-- The outline of a graph consists of records, where the walks through the trees come to all steps. -/
structure OutlinedBy (graph : Graph) (walks : List (List Visit)) : Prop where
  text : graph.outline = String.join ((graph.records walks).map (· ++ "\n"))
  tour : graph.forest.Tour walks
  once : (walks.flatten.map Visit.id).Perm (List.range graph.forest.steps.length)
  chains : ∀ (tree : TreeId) (visits : List Visit), walks[tree]? = some visits → ∀ visit, visit ∈ visits ↔
    graph.forest.steps[visit.id]? = some visit.step ∧
      graph.forest.Leads (.tree tree) visit.depth (.step visit.id)
  descendants : ∀ visits ∈ walks, ∀ before visit after, visits = before ++ visit :: after →
    ∃ below rest, after = below ++ rest ∧ (∀ next ∈ rest.head?, next.depth ≤ visit.depth) ∧
      ∀ lower, lower ∈ below ↔ graph.forest.steps[lower.id]? = some lower.step ∧ ∃ further,
        lower.depth = visit.depth + (further + 1) ∧
          graph.forest.Leads (.step visit.id) (further + 1) (.step lower.id)
  cycles : (graph.cycles.entries.map Prod.fst).Pairwise (· < ·)

end Graph

/-- The graphs that building and passes lead to from a plan. Entries may fail, and what a builder has
gathered remains then; finishing may fail and stop half way. -/
inductive Plan.Reaches (plan : Plan) : Graph → Prop
  | initial {hierarchy : Hierarchy} {graph : Graph} (built : plan.initialGraph hierarchy = .ok graph) :
      plan.Reaches graph
  | gathered (hierarchy : Hierarchy) :
      plan.Reaches ((Builder.start plan.prefixes).addAll hierarchy plan.entries).graph
  | passed {graph later : Graph} (reached : plan.Reaches graph) (pass : graph.Pass later) :
      plan.Reaches later

/-! The text. -/

theorem indentation_eq (level : Nat) :
    indentation level = String.ofList (List.replicate (2 * level) ' ') := by
  induction level with
  | zero => rfl
  | succ level ih =>
    rw [indentation, List.replicate_succ, String.join_cons, ← indentation, ih, Nat.mul_succ, Nat.add_comm,
      List.replicate_add, String.ofList_append]
    rfl

namespace Graph
variable {graph : Graph} {ids : List StepId} {visits : List Visit} {walks : List (List Visit)}

theorem append_of_split {text first second : String} (split : text = first ++ second) (rest : String) :
    text ++ rest = first ++ (second ++ rest) := by
  rw [split, String.append_assoc]

theorem listed_eq {heading name : String} (spelled : heading = " " ++ name ++ ": ") (items : List String) :
    listed heading items = String.join ((field name items).map (" " ++ ·)) := by
  cases items <;> simp [listed, field, separated, spelled, String.append_assoc]

theorem optionalLine_eq {heading name : String} (spelled : heading = indented 1 (name ++ ": "))
    (items : List String) : optionalLine heading items = (field name items).map (indented 1) := by
  cases items <;> simp [optionalLine, field, separated, spelled, indented, String.append_assoc]

theorem checkSuffix_eq (check : Option Bool) :
    checkSuffix check = String.join ((checkField check).map (" " ++ ·)) := by
  rcases check with _ | _ | _ <;> decide

theorem record_eq (head : String) (fields : List String) :
    record head fields = head ++ String.join (fields.map (" " ++ ·)) := by
  unfold record
  induction fields generalizing head with
  | nil => simp
  | cons first rest ih =>
    rw [String.intercalate_cons_cons, ih, List.map_cons, String.join_cons]
    simp only [String.append_assoc]

theorem stepLine_eq (graph : Graph) (level : Nat) (step : Step) :
    graph.stepLine level step = indented level (graph.stepRow step) := by
  have patterns := listed_eq (show " byPattern: " = " " ++ "byPattern" ++ ": " by decide)
    (step.patterns.elements.map patternName)
  have starts := listed_eq (show " isCycleStartOf: " = " " ++ "isCycleStartOf" ++ ": " by decide)
    step.cycleStarts.elements
  have types := append_of_split (show " [" = " " ++ "[" by decide)
  unfold stepLine stepRow
  simp only [record_eq, indented, indentation_eq, checkSuffix_eq, patterns, starts, iriNames, separated,
    shownTypes, List.map_append, List.map_cons, List.map_nil, String.join_append, String.join_cons,
    String.join_nil, String.append_assoc, String.append_empty, types]
  cases step.label <;> rfl

theorem treeHeader_eq (graph : Graph) (tree : SearchTree) :
    graph.treeHeader tree = graph.headRows tree := by
  have seeds := optionalLine_eq (show "  hasSeed: " = indented 1 ("hasSeed" ++ ": ") by decide)
    (tree.seeds.elements.map graph.iriName)
  have cycles := optionalLine_eq
    (show "  goesThroughCycle: " = indented 1 ("goesThroughCycle" ++ ": ") by decide) tree.cycles.elements
  have patterns : optionalLine "  byPattern: " (tree.patterns.elements.map patternName) =
      (field "byPattern" (tree.patterns.elements.map tag)).map (indented 1) :=
    optionalLine_eq (show "  byPattern: " = indented 1 ("byPattern" ++ ": ") by decide) _
  have name := append_of_split (show "SearchTree " = "SearchTree" ++ " " by decide)
  have length := append_of_split (show " length: " = " " ++ "length: " by decide)
  have indent (rest : String) : "  fromType: " ++ rest = indented 1 ("fromType: " ++ rest) := by
    rw [indented, ← String.append_assoc]
    rfl
  unfold treeHeader headRows
  simp only [seeds, cycles, patterns, record_eq, iriNames, separated, indent, List.map_append, List.map_cons,
    List.map_nil, String.join_cons, String.join_nil, String.append_assoc, String.append_empty,
    List.cons_append, List.nil_append, name, length]

theorem spaceLine_eq : spaceLine = spaceRow := rfl

theorem patternLine_eq (graph : Graph) (id : PatternId) (node : PatternNode) :
    graph.patternLine id node = graph.patternRow id node := by
  have shows (term : PatternTerm) : graph.termName term = graph.shown term := by
    rcases term with name | (iri | label | value) <;> simp only [termName, shown, PatternTerm.iri?]
  have predicate (predicate : Predicate) : graph.predicateName predicate = graph.shownPredicate predicate := by
    rcases predicate with iri | name <;> simp only [predicateName, shownPredicate, variableText]
  have colon := append_of_split (show ": " = ":" ++ " " by decide)
  unfold patternLine patternRow
  simp only [record_eq, checkSuffix_eq, shows, predicate, patternName, tag, List.map_append, List.map_cons,
    List.map_nil, String.join_append, String.join_cons, String.join_nil, String.append_assoc,
    String.append_empty, colon]

/-- The descent does not run out of fuel, since numbers grow on the way down. -/
theorem stepLines_eq (links : graph.forest.Linked) {level fuel : Nat}
    (walk : graph.forest.Walks level ids visits)
    (enough : ∀ id ∈ ids, graph.forest.steps.length ≤ fuel + id) :
    (ids.flatMap fun id => graph.stepLines level id fuel) = visits.map graph.visitRow := by
  induction walk generalizing fuel with
  | done => rfl
  | @visit level id step rest below after found descends continues ihBelow ihAfter =>
    obtain ⟨first, others⟩ := List.forall_mem_cons.mp enough
    -- Without fuel the number would name no step.
    have inside : id < graph.forest.steps.length := (List.getElem?_eq_some_iff.mp found).1
    cases fuel with
    | zero =>
      rw [Nat.zero_add] at first
      exact absurd inside (Nat.not_lt.mpr first)
    | succ fuel =>
      have lower : ∀ child ∈ step.children, graph.forest.steps.length ≤ fuel + child :=
        fun _ listed => links.effort_of_child found listed first
      have lines : graph.stepLines level id (fuel + 1) = graph.stepLine level step ::
          step.children.flatMap fun child => graph.stepLines (level + 1) child fuel := by
        simp only [stepLines, found]
      rw [List.flatMap_cons, lines, ihBelow lower, ihAfter others, stepLine_eq, List.map_cons,
        List.map_append, List.cons_append]
      rfl

example : groupSpread.stepLines 1 0 2 = ["  <member> [<Person>]",
    "    #end [<Author>, <Name>, <Person>] byPattern: tp0, tp1 checkType: true isCycleStartOf: c"] := by
  decide +kernel

theorem treeLines_eq (links : graph.forest.Linked) (tour : graph.forest.Tour walks) :
    graph.forest.trees.flatMap graph.treeLines =
      (List.zipWith graph.treeRows graph.forest.trees walks).flatten := by
  unfold Forest.Tour at tour
  generalize graph.forest.trees = trees at tour
  induction tour with
  | nil => rfl
  | cons walk _ ih =>
    rw [List.flatMap_cons, List.zipWith_cons_cons, List.flatten_cons, ih, treeLines, treeRows,
      treeHeader_eq, stepLines_eq links walk fun _ _ => Nat.le_add_right ..]

theorem cycleStepLines_eq (graph : Graph) (level : Nat) (steps : List PathStep) :
    graph.cycleStepLines level steps = (steps.zipIdx level).map fun (step, place) =>
      indented place (graph.iriName step.property ++ " [" ++ graph.iriName step.type ++ "]") := by
  induction steps generalizing level with
  | nil => rfl
  | cons step rest ih =>
    rw [cycleStepLines, ih, List.zipIdx_cons, List.map_cons]
    simp [indented, indentation_eq, String.append_assoc]

theorem cycleLines_eq (graph : Graph) (id : CycleId) (cycle : Cycle) :
    graph.cycleLines id cycle = graph.cycleRows id cycle := by
  have name := append_of_split (show "Cycle " = "Cycle" ++ " " by decide)
  have types := append_of_split (show " [" = " " ++ "[" by decide)
  rw [cycleLines, cycleRows, cycleStepLines_eq, List.zipIdx_succ, List.map_map]
  simp only [record_eq, iriNames, separated, shownTypes, List.map_cons, List.map_nil, String.join_cons,
    String.join_nil, String.append_assoc, String.append_empty, name, types]
  rfl

theorem outlineLines_eq (links : graph.forest.Linked) (tour : graph.forest.Tour walks) :
    graph.outlineLines = graph.records walks := by
  simp only [outlineLines, records, treeLines_eq links tour, cycleLines_eq, patternLine_eq, spaceLine_eq]

theorem exists_outlinedBy (links : graph.forest.Linked) : ∃ walks, graph.OutlinedBy walks := by
  obtain ⟨walks, tour⟩ := links.exists_tour
  refine ⟨walks, ?_, tour, links.tour_perm tour, fun _ _ found _ => links.mem_tour tour found, ?_, ?_⟩
  · rw [outline, outlineLines_eq links tour]
  · intro visits member before visit after parts
    obtain ⟨tree, found⟩ := List.getElem?_of_mem member
    obtain ⟨below, rest, whole, walk, shallow⟩ := (tour.walk_at found).descend_first parts
    have here : visit ∈ visits := by simp [parts]
    have children := Forest.childrenOf_step ((links.mem_tour tour found).mp here).1
    refine ⟨below, rest, whole, shallow, fun lower => ?_⟩
    rw [links.mem_walk_children (children.symm ▸ walk)]
    simp only [Nat.add_assoc, Nat.add_comm 1]
  · exact List.pairwise_map.mpr graph.cycles.increasing

end Graph

/-! The graphs that are reached. -/

theorem Plan.Reaches.keeps {plan : Plan} {graph : Graph} (reached : plan.Reaches graph) :
    graph.forest.Linked ∧ graph.CyclesDescribed := by
  induction reached with
  | initial built =>
    have represents := (Plan.Initial.of_ok built).2
    exact ⟨represents.links, represents.cyclesDescribed⟩
  | gathered hierarchy =>
    obtain ⟨taken, gathers⟩ := (Builder.gathers_start plan.prefixes).addAll hierarchy plan.entries
    exact ⟨gathers.madeOf.links, gathers.cyclesDescribed⟩
  | passed _ pass ih =>
    obtain ⟨links, described⟩ := ih
    obtain ⟨evolves, still⟩ := pass.keeps described
    exact ⟨evolves.sameLinks.linked links, still⟩

/-- The outline of every graph that a plan leads to is one record after the other. Each step has one of
them, in the tree that it is reached from, as deep as its chain is long, and what lies below it comes next. -/
theorem outline_lists_each_step_once (plan : Plan) (graph : Graph) (reached : plan.Reaches graph) :
    ∃ walks, graph.OutlinedBy walks :=
  Graph.exists_outlinedBy reached.keeps.1

def groupOutline : String :=
  "SearchSpace query definedBy tp0\nSearchSpace query definedBy tp1\n" ++
    "TriplePattern tp0: ?x <http://www.w3.org/1999/02/22-rdf-syntax-ns#type> <Person> checkType: true\n" ++
    "TriplePattern tp1: ?x <name> ?n\n" ++
    "SearchTree a45ca4583cb3047c3e271938391ff01a length: 3\n  fromType: <Person>\n  hasSeed: <group>\n" ++
    "  goesThroughCycle: c\n  <member> [<Person>]\n" ++
    "    #end [<Author>, <Name>, <Person>] byPattern: tp0, tp1 checkType: true isCycleStartOf: c\n" ++
    "Cycle c [<Author>, <Person>]\n  <knows> [<Person>]\n"

/-- Finishing fails without types and leaves the graph as it is; propagation succeeds after that. -/
theorem outline_lists_each_step_once_group : groupPlan.Reaches groupSpread ∧
    groupSpread.outline = groupOutline ∧ ∃ walks, groupSpread.OutlinedBy walks := by
  have fails : groupGraph.finish .empty = (groupGraph, some ⟨"Person"⟩) := by decide +kernel
  have propagates : groupGraph.propagate groupTypes ⟨.ofList ["x"], ∅⟩ = .ok groupSpread := by
    decide +kernel
  have reached : groupPlan.Reaches groupSpread :=
    .passed (.passed (.initial initialGraph_groupPlan) (.finish .empty _ fails))
      (.propagate groupTypes _ propagates)
  exact ⟨reached, by decide +kernel, outline_lists_each_step_once groupPlan groupSpread reached⟩

end PlanGraph
