import PlanGraph.Proofs.Graph.InPlace
import PlanGraph.Proofs.Graph.Siblings

/-! The effect of propagation on an initial graph. Eligible steps widen by the subtypes of the types that
the leaf beside them asserts, cycles stay exactly if such a step meets what lies below their first
type, and nothing else changes. -/

set_option autoImplicit false
namespace PlanGraph

def Graph.MeetsAt (graph result : Graph) (roots : Roots) (closure : OrderedSet Iri) (id : StepId) :
    Prop :=
  ∃ before after, graph.forest.steps[id]? = some before ∧ result.forest.steps[id]? = some after ∧
    graph.Eligible roots before ∧ after.types.meets closure = true

structure StepEffect (hierarchy : Hierarchy) (roots : Roots) (graph : Graph) (before after : Step) :
    Prop where
  widened : graph.Eligible roots before → ∀ type, type ∈ after.types ↔
    type ∈ before.types ∨ ∃ asserted, graph.AssertedBeside before asserted ∧ asserted ∈ before.types ∧
      ∃ closure, hierarchy.subtypes asserted = .ok closure ∧ type ∈ closure
  unwidened : ¬graph.Eligible roots before → after.types = before.types
  others : { after with types := before.types, cycleStarts := before.cycleStarts } = before

structure CycleEffect (hierarchy : Hierarchy) (roots : Roots) (graph result : Graph) (id : CycleId)
    (cycle : Cycle) (closure : OrderedSet Iri) : Prop where
  remains : result.cycles.find? id = some cycle ↔ ∃ number, graph.MeetsAt result roots closure number
  starts : result.cycles.find? id = some cycle → ∀ number after,
    result.forest.steps[number]? = some after →
      (id ∈ after.cycleStarts ↔ graph.MeetsAt result roots closure number)
  removed : ¬result.cycles.find? id = some cycle →
    (∀ tree ∈ result.forest.trees, ¬id ∈ tree.cycles) ∧
      ∀ step ∈ result.forest.steps, ¬id ∈ step.cycleStarts

structure PropagationEffect (hierarchy : Hierarchy) (roots : Roots) (graph result : Graph) : Prop where
  prefixes : result.prefixes = graph.prefixes
  spaces : result.spaces = graph.spaces
  patterns : result.patterns = graph.patterns
  trees : result.forest.trees = graph.forest.trees.map fun tree =>
    { tree with cycles := tree.cycles.filter result.cycles.contains }
  length : result.forest.steps.length = graph.forest.steps.length
  steps : ∀ (id : StepId) (before after : Step), graph.forest.steps[id]? = some before →
    result.forest.steps[id]? = some after → StepEffect hierarchy roots graph before after
  cycles : ∀ id cycle, graph.cycles.find? id = some cycle → ∃ first rest closure,
    cycle.steps = first :: rest ∧ hierarchy.subtypes first.type = .ok closure ∧
      CycleEffect hierarchy roots graph result id cycle closure
  created : ∀ id cycle, result.cycles.find? id = some cycle → graph.cycles.find? id = some cycle

section
variable {plan : Plan} {hierarchy : Hierarchy} {roots : Roots} {graph : Graph}

theorem Plan.Initial.cycle_start (initial : plan.Initial hierarchy graph) {id : CycleId} {cycle : Cycle}
    (found : graph.cycles.find? id = some cycle) : ∃ first rest, cycle.steps = first :: rest ∧
      hierarchy.contains first.type = true ∧ cycle.types = hierarchy.below first.type := by
  rw [initial.cycles] at found
  obtain ⟨steps, _, described⟩ := Option.bind_eq_some_iff.mp found
  obtain ⟨first, rest, same, known, rfl⟩ := Hierarchy.cycle?_eq_some.mp described
  exact ⟨first, rest, same, known, rfl⟩

/-- The types below types below a first type add nothing. -/
theorem Plan.Initial.anchors_iff (initial : plan.Initial hierarchy graph) {id : CycleId} {cycle : Cycle}
    (found : graph.cycles.find? id = some cycle) {first : PathStep}
    (types : cycle.types = hierarchy.below first.type) {step : Step} :
    graph.Anchors hierarchy roots step id ↔ graph.Eligible roots step ∧
      (graph.spreadStep hierarchy roots step).types.meets (hierarchy.below first.type) = true := by
  unfold Graph.Anchors
  rw [initial.isEligible_iff]
  refine and_congr_right fun eligible => ?_
  have widened (type : Iri) : type ∈ (graph.spreadStep hierarchy roots step).types ↔
      type ∈ graph.newTypes hierarchy step := by
    simp [Graph.mem_types_spreadStep, Graph.mem_newTypes, initial.isEligible_iff, eligible]
  -- The second closure starts from types below the first type, and `below` is transitive.
  rw [OrderedSet.meets_iff]
  simp only [widened, found, Option.some.injEq, exists_eq_left', types]
  constructor
  · rintro ⟨type, expected, root, below, lower⟩
    exact ⟨type, expected, Hierarchy.below_trans below lower⟩
  · rintro ⟨type, expected, below⟩
    exact ⟨type, expected, first.type, Hierarchy.self_mem_below hierarchy first.type, below⟩

theorem Plan.Initial.meetsAt_iff (initial : plan.Initial hierarchy graph) {id : CycleId} {cycle : Cycle}
    (found : graph.cycles.find? id = some cycle) {first : PathStep}
    (types : cycle.types = hierarchy.below first.type) {number : StepId} :
    graph.MeetsAt (graph.spread hierarchy roots) roots (hierarchy.below first.type) number ↔
      ∃ before, graph.forest.steps[number]? = some before ∧ graph.Anchors hierarchy roots before id := by
  simp only [Graph.MeetsAt, Graph.getElem?_spread, initial.anchors_iff found types]
  constructor
  · rintro ⟨before, after, there, spread, eligible, meets⟩
    rw [there, Option.map_some, Option.some.injEq] at spread
    exact ⟨before, there, eligible, spread ▸ meets⟩
  · rintro ⟨before, there, eligible, meets⟩
    exact ⟨before, _, there, by rw [there, Option.map_some], eligible, meets⟩

theorem Plan.Initial.stepEffect (initial : plan.Initial hierarchy graph)
    (known : graph.AssertedKnown hierarchy roots) {step : Step} (member : step ∈ graph.forest.steps) :
    StepEffect hierarchy roots graph step (graph.spreadStep hierarchy roots step) where
  widened := fun eligible type => by
    have eligible := initial.isEligible_iff.mpr eligible
    rw [Graph.mem_types_spreadStep]
    simp only [eligible, true_and, initial.mem_assertedNear, and_assoc]
    refine or_congr_right (exists_congr fun asserted => and_congr_right fun beside => ?_)
    refine and_congr_right fun expected => ?_
    have declared := known step member eligible asserted (initial.mem_assertedNear.mpr ⟨beside, expected⟩)
    simp [Hierarchy.subtypes_eq_ok_iff, declared]
  unwidened := fun other => OrderedSet.ext fun type => by
    rw [Graph.mem_types_spreadStep, initial.isEligible_iff]
    simp [other]
  others := rfl

theorem Plan.Initial.cycleEffect (initial : plan.Initial hierarchy graph) {id : CycleId} {cycle : Cycle}
    (found : graph.cycles.find? id = some cycle) {first : PathStep}
    (types : cycle.types = hierarchy.below first.type) :
    CycleEffect hierarchy roots graph (graph.spread hierarchy roots) id cycle
      (hierarchy.below first.type) where
  remains := by
    rw [Graph.find?_spread]
    simp only [found, true_and, initial.meetsAt_iff found types]
    constructor
    · rintro ⟨step, member, anchors⟩
      obtain ⟨number, there⟩ := List.getElem?_of_mem member
      exact ⟨number, step, there, anchors⟩
    · rintro ⟨number, step, there, anchors⟩
      exact ⟨step, List.mem_of_getElem? there, anchors⟩
  starts := fun _ number after there => by
    rw [Graph.getElem?_spread, Option.map_eq_some_iff] at there
    obtain ⟨before, was, rfl⟩ := there
    rw [Graph.mem_starts_spreadStep (List.mem_of_getElem? was), initial.meetsAt_iff found types]
    simp [was, initial.no_starts was]
  removed := fun gone => by
    have dropped : (graph.keptCycles hierarchy roots).contains id = false := by
      rw [← Bool.not_eq_true, List.contains_iff_mem, Graph.mem_keptCycles]
      exact fun anchored => gone (Graph.find?_spread.mpr ⟨found, anchored⟩)
    -- Mentions of a cycle are filtered like the cycles themselves.
    have unmentioned (cycles : OrderedSet CycleId) :
        ¬id ∈ cycles.filter (graph.keptCycles hierarchy roots).contains := by
      intro mentioned
      have kept := (OrderedSet.mem_filter.mp mentioned).2
      rw [dropped] at kept
      cases kept
    constructor
    · intro tree member
      obtain ⟨before, _, rfl⟩ := List.mem_map.mp member
      exact unmentioned before.cycles
    · intro step member
      obtain ⟨before, _, rfl⟩ := List.mem_map.mp member
      exact unmentioned _

/-- Propagation on an initial graph, if it succeeds, has exactly the effect stated. -/
theorem propagate_effect {result : Graph} (built : plan.initialGraph hierarchy = .ok graph)
    (propagated : graph.propagate hierarchy roots = .ok result) :
    PropagationEffect hierarchy roots graph result := by
  have initial := (Plan.Initial.of_ok built).2
  obtain ⟨asserted, _, rfl⟩ := (Graph.propagate_eq_ok_iff initial.cyclesDescribed).mp propagated
  refine ⟨rfl, rfl, rfl, ?_, List.length_map _, ?_, ?_, ?_⟩
  · refine List.map_congr_left fun tree _ => ?_
    have same : (graph.keptCycles hierarchy roots).contains =
        (graph.spread hierarchy roots).cycles.contains := funext fun id => Graph.contains_spread.symm
    rw [Graph.spreadTree, same]
  · intro id before after was there
    rw [Graph.getElem?_spread, was, Option.map_some, Option.some.injEq] at there
    exact there ▸ initial.stepEffect asserted (List.mem_of_getElem? was)
  · intro id cycle found
    obtain ⟨first, rest, steps, known, types⟩ := initial.cycle_start found
    exact ⟨first, rest, hierarchy.below first.type, steps,
      Hierarchy.subtypes_eq_ok_iff.mpr ⟨known, rfl⟩, initial.cycleEffect found types⟩
  · exact fun id cycle found => (Graph.find?_spread.mp found).1

end

/-- The shared leaf widens to the authors, and the cycle of persons starts there. -/
def groupSpread : Graph :=
  { groupGraph with
    forest :=
      { trees := [groupTree]
        steps :=
          [⟨.tree 0, .property "member", .ofList ["Person"], ∅, none, ∅, [1]⟩,
            ⟨.step 0, .leaf, .ofList ["Author", "Name", "Person"], .ofList [0, 1], some true,
              .ofList ["c"], []⟩] } }

theorem propagate_effect_at_shared_leaf :
    groupPlan.initialGraph groupTypes = .ok groupGraph ∧
      groupGraph.propagate groupTypes ⟨.ofList ["x"], ∅⟩ = .ok groupSpread ∧
      PropagationEffect groupTypes ⟨.ofList ["x"], ∅⟩ groupGraph groupSpread := by
  have propagated : groupGraph.propagate groupTypes ⟨.ofList ["x"], ∅⟩ = .ok groupSpread := by
    decide +kernel
  exact ⟨initialGraph_groupPlan, propagated, propagate_effect initialGraph_groupPlan propagated⟩

end PlanGraph
