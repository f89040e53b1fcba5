import Mathlib.Data.List.Basic
import PlanGraph.Graph.Compilation
import PlanGraph.Proofs.Graph.Finishing
import PlanGraph.Proofs.Graph.InPlace

/-! Compilation as a chain of functions on graphs. It fails only for types that are not known; otherwise
the initial graph is spread and finished, and every tree and step of the result is computed from the
one of the same number. -/

set_option autoImplicit false
namespace PlanGraph.Graph

section
variable {graph result : Graph} {hierarchy : Hierarchy} {roots : Roots}

structure Known (graph : Graph) (hierarchy : Hierarchy) (roots : Roots) : Prop where
  asserted : graph.AssertedKnown hierarchy roots
  cycles : graph.CyclesKnown hierarchy
  sources : SourcesKnown hierarchy graph.forest.trees

theorem sameLinks_spread (graph : Graph) :
    Forest.SameLinks graph.forest (graph.spread hierarchy roots).forest :=
  graph.forest.sameLinks_map (fun _ => rfl) (fun _ => rfl) (fun _ => rfl) fun _ => rfl

/-- Compilation is building, spreading and finishing, if all types are known. -/
theorem compile_eq_ok_iff {plan : Plan} : plan.compile hierarchy roots = .ok result ↔
    ∃ initial, plan.initialGraph hierarchy = .ok initial ∧ initial.Known hierarchy roots ∧
      (initial.spread hierarchy roots).finished hierarchy = result := by
  unfold Plan.compile
  cases built : plan.initialGraph hierarchy with
  | error error => simp [bind, Except.bind]
  | ok initial =>
    have links := (Plan.Initial.of_ok built).2.links
    have described := (Plan.Initial.of_ok built).2.cyclesDescribed
    -- Spreading does not touch starting types, so finishing asks for the same ones.
    have same : SourcesKnown hierarchy (initial.spread hierarchy roots).forest.trees ↔
        SourcesKnown hierarchy initial.forest.trees := by
      simp [SourcesKnown, spread, spreadTree]
    cases propagated : initial.propagate hierarchy roots with
    | error error =>
      have unknown : ¬initial.Known hierarchy roots := fun known => by
        rw [(propagate_eq_ok_iff described).mpr ⟨known.asserted, known.cycles, rfl⟩] at propagated
        cases propagated
      simp [bind, Except.bind, unknown, propagated]
    | ok spread =>
      obtain ⟨asserted, cycles, rfl⟩ := (propagate_eq_ok_iff described).mp propagated
      by_cases sources : SourcesKnown hierarchy initial.forest.trees
      · have known : initial.Known hierarchy roots := ⟨asserted, cycles, sources⟩
        have spreadLinks : (initial.spread hierarchy roots).forest.Linked :=
          (sameLinks_spread initial).linked links
        simp [bind, Except.bind, known, propagated, finish_of_known spreadLinks (same.mpr sources)]
      · have unknown : ¬initial.Known hierarchy roots := fun known => sources known.sources
        obtain ⟨narrowed, error, fails⟩ := finish_of_unknown fun known => sources (same.mp known)
        simp [bind, Except.bind, unknown, propagated, fails]

end

section
variable (graph : Graph) (hierarchy : Hierarchy) (roots : Roots)

def compiledStep (step : Step) : Step :=
  (graph.spread hierarchy roots).finishStep (graph.spreadStep hierarchy roots step)

def compiledTree (tree : SearchTree) : SearchTree :=
  (graph.spread hierarchy roots).finishTree hierarchy (graph.spreadTree hierarchy roots tree)

def compiled : Graph := (graph.spread hierarchy roots).finished hierarchy

theorem compiled_steps : (graph.compiled hierarchy roots).forest.steps =
    graph.forest.steps.map (graph.compiledStep hierarchy roots) :=
  List.map_map

theorem compiled_trees : (graph.compiled hierarchy roots).forest.trees =
    graph.forest.trees.map (graph.compiledTree hierarchy roots) :=
  List.map_map

theorem compiledTree_others (tree : SearchTree) :
    { graph.compiledTree hierarchy roots tree with
      fromTypes := tree.fromTypes, seeds := tree.seeds, cycles := tree.cycles } = tree := rfl

theorem compiledStep_others (step : Step) :
    { graph.compiledStep hierarchy roots step with
      types := step.types, cycleStarts := step.cycleStarts } = step := by
  unfold compiledStep finishStep
  split <;> rfl

theorem compiledStep_patterns (step : Step) :
    (graph.compiledStep hierarchy roots step).patterns = step.patterns := by
  have kept := congrArg Step.patterns (graph.compiledStep_others hierarchy roots step)
  exact kept

theorem compiledStep_check (step : Step) :
    (graph.compiledStep hierarchy roots step).check = step.check := by
  have kept := congrArg Step.check (graph.compiledStep_others hierarchy roots step)
  exact kept

end

section
variable {graph : Graph} {hierarchy : Hierarchy} {roots : Roots} {step : Step} {tree : SearchTree}

theorem isPromoted_spread : (graph.spread hierarchy roots).isPromoted
    (graph.spreadStep hierarchy roots step) ↔ graph.isPromoted step := Iff.rfl

theorem gainedSeeds_spread : (graph.spread hierarchy roots).gainedSeeds
    (graph.spreadTree hierarchy roots tree) = graph.gainedSeeds tree := by
  refine List.flatMap_congr fun id _ => ?_
  rw [getElem?_spread]
  cases graph.forest.steps[id]? with
  | none => rfl
  | some step => rfl

theorem mem_types_compiledStep {type : Iri} : type ∈ (graph.compiledStep hierarchy roots step).types ↔
    type ∈ step.types ∨ graph.isEligible roots step = true ∧
      ∃ asserted ∈ graph.assertedNear step, type ∈ hierarchy.below asserted := by
  rw [← mem_types_spreadStep]
  unfold compiledStep finishStep
  split <;> rfl

theorem mem_starts_compiledStep (member : step ∈ graph.forest.steps) {id : CycleId} :
    id ∈ (graph.compiledStep hierarchy roots step).cycleStarts ↔ ¬graph.isPromoted step ∧
      (graph.Anchors hierarchy roots step id ∨
        id ∈ step.cycleStarts ∧ id ∈ graph.keptCycles hierarchy roots) := by
  have same : (graph.spread hierarchy roots).isPromoted (graph.spreadStep hierarchy roots step) ↔
      graph.isPromoted step := isPromoted_spread
  rw [← mem_starts_spreadStep member, ← same]
  unfold compiledStep finishStep
  split
  · next promoted => simp [promoted]
  · next other => simp [other]

theorem mem_seeds_compiledTree {seed : Iri} : seed ∈ (graph.compiledTree hierarchy roots tree).seeds ↔
    seed ∈ graph.gainedSeeds tree ∨ seed ∈ tree.seeds := by
  unfold compiledTree finishTree
  rw [OrderedSet.mem_insertAll, gainedSeeds_spread]
  rfl

theorem mem_cycles_compiledTree {id : CycleId} :
    id ∈ (graph.compiledTree hierarchy roots tree).cycles ↔
      id ∈ tree.cycles ∧ id ∈ graph.keptCycles hierarchy roots := by
  refine OrderedSet.mem_filter.trans ?_
  rw [List.contains_iff_mem]

end
end PlanGraph.Graph
