import PlanGraph.Graph.Propagation
import PlanGraph.Proofs.Hierarchy.Closure

/-! Propagation as a function of the graph it starts from. Every step is computed from the graph as it
was, and a cycle is kept exactly if one of them anchors it. -/

set_option autoImplicit false
namespace PlanGraph.Graph

section
variable (graph : Graph) (hierarchy : Hierarchy) (roots : Roots)

def newTypes (step : Step) : OrderedSet Iri :=
  step.types.union (hierarchy.belowAll (graph.assertedNear step))

def stepTypes? (step : Step) : Option (OrderedSet Iri) :=
  if !step.types.isEmpty && graph.isEligible roots step then some (graph.newTypes hierarchy step)
  else none

def anchors : List (CycleId × OrderedSet Iri) :=
  graph.cycles.entries.map fun entry => (entry.1, hierarchy.belowAll entry.2.types.elements)

def anchoredAt (step : Step) : List CycleId :=
  match graph.stepTypes? hierarchy roots step with
  | none => []
  | some types => ((graph.anchors hierarchy).filter fun anchor => types.meets anchor.2).map (·.1)

def keptCycles : List CycleId := graph.forest.steps.flatMap (graph.anchoredAt hierarchy roots)

def spreadStep (step : Step) : Step :=
  { step with
    types := (graph.stepTypes? hierarchy roots step).getD step.types
    cycleStarts := (step.cycleStarts.insertAll (graph.anchoredAt hierarchy roots step)).filter
      (graph.keptCycles hierarchy roots).contains }

def spreadTree (tree : SearchTree) : SearchTree :=
  { tree with cycles := tree.cycles.filter (graph.keptCycles hierarchy roots).contains }

def spread : Graph where
  prefixes := graph.prefixes
  spaces := graph.spaces
  patterns := graph.patterns
  forest := ⟨graph.forest.trees.map (graph.spreadTree hierarchy roots),
    graph.forest.steps.map (graph.spreadStep hierarchy roots)⟩
  cycles := graph.cycles.filter fun entry => (graph.keptCycles hierarchy roots).contains entry.1

def StepKnown (step : Step) : Prop :=
  graph.isEligible roots step = true → ∀ type ∈ graph.assertedNear step, hierarchy.contains type = true

def AssertedKnown : Prop := ∀ step ∈ graph.forest.steps, graph.StepKnown hierarchy roots step

def CyclesKnown : Prop :=
  ∀ id cycle, graph.cycles.find? id = some cycle → ∀ type, type ∈ cycle.types →
    hierarchy.contains type = true

end

section
variable {graph : Graph} {hierarchy : Hierarchy} {roots : Roots} {step : Step} {id : CycleId}

theorem mem_newTypes {type : Iri} : type ∈ graph.newTypes hierarchy step ↔
    type ∈ step.types ∨ ∃ asserted ∈ graph.assertedNear step, type ∈ hierarchy.below asserted := by
  simp [newTypes, Hierarchy.mem_belowAll, or_comm]

theorem expected_of_assertedNear {type : Iri} (asserted : type ∈ graph.assertedNear step) :
    type ∈ step.types := by
  unfold assertedNear at asserted
  exact OrderedSet.contains_iff.mp (List.mem_filter.mp asserted).2

/-- Passing over steps without types loses nothing, because they never get any. -/
theorem mem_stepTypes? {type : Iri} :
    (∃ types, graph.stepTypes? hierarchy roots step = some types ∧ type ∈ types) ↔
      graph.isEligible roots step = true ∧ type ∈ graph.newTypes hierarchy step := by
  unfold stepTypes?
  constructor
  · rintro ⟨types, found, expected⟩
    split at found
    · next takesPart =>
      cases found
      exact ⟨(Bool.and_eq_true_iff.mp takesPart).2, expected⟩
    · cases found
  · rintro ⟨eligible, expected⟩
    -- New types come from asserted ones that the step expects, so it expected something before.
    have some_type : ∃ before, before ∈ step.types := by
      rcases mem_newTypes.mp expected with before | ⟨asserted, near, _⟩
      · exact ⟨type, before⟩
      · exact ⟨asserted, expected_of_assertedNear near⟩
    have nonempty := OrderedSet.isEmpty_eq_false_iff.mpr some_type
    exact ⟨_, by simp [nonempty, eligible], expected⟩

def Anchors (graph : Graph) (hierarchy : Hierarchy) (roots : Roots) (step : Step) (id : CycleId) :
    Prop :=
  graph.isEligible roots step = true ∧ ∃ cycle, graph.cycles.find? id = some cycle ∧
    ∃ type, type ∈ graph.newTypes hierarchy step ∧ ∃ root, root ∈ cycle.types ∧ type ∈ hierarchy.below root

theorem mem_anchors {types : OrderedSet Iri} : (id, types) ∈ graph.anchors hierarchy ↔
    ∃ cycle, graph.cycles.find? id = some cycle ∧ hierarchy.belowAll cycle.types.elements = types := by
  simp only [anchors, List.mem_map, Prod.exists, Prod.mk.injEq, OrderedMap.mem_entries]
  constructor
  · rintro ⟨_, cycle, found, rfl, below⟩
    exact ⟨cycle, found, below⟩
  · rintro ⟨cycle, found, below⟩
    exact ⟨id, cycle, found, rfl, below⟩

theorem mem_anchoredAt_iff : id ∈ graph.anchoredAt hierarchy roots step ↔
    ∃ types, graph.stepTypes? hierarchy roots step = some types ∧
      ∃ closure, (id, closure) ∈ graph.anchors hierarchy ∧ types.meets closure = true := by
  unfold anchoredAt
  cases graph.stepTypes? hierarchy roots step with
  | none => simp
  | some types => simp

theorem mem_anchoredAt : id ∈ graph.anchoredAt hierarchy roots step ↔
    graph.Anchors hierarchy roots step id := by
  rw [mem_anchoredAt_iff]
  constructor
  · rintro ⟨types, chosen, closure, listed, meets⟩
    obtain ⟨cycle, found, rfl⟩ := mem_anchors.mp listed
    obtain ⟨type, expected, below⟩ := OrderedSet.meets_iff.mp meets
    obtain ⟨eligible, new⟩ := mem_stepTypes?.mp ⟨types, chosen, expected⟩
    exact ⟨eligible, cycle, found, type, new, Hierarchy.mem_belowAll.mp below⟩
  · rintro ⟨eligible, cycle, found, type, new, below⟩
    obtain ⟨types, chosen, expected⟩ := mem_stepTypes?.mpr ⟨eligible, new⟩
    refine ⟨types, chosen, _, mem_anchors.mpr ⟨cycle, found, rfl⟩, ?_⟩
    exact OrderedSet.meets_iff.mpr ⟨type, expected, Hierarchy.mem_belowAll.mpr below⟩

theorem mem_keptCycles : id ∈ graph.keptCycles hierarchy roots ↔
    ∃ step ∈ graph.forest.steps, graph.Anchors hierarchy roots step id := by
  simp only [keptCycles, List.mem_flatMap, mem_anchoredAt]

theorem find?_spread {cycle : Cycle} : (graph.spread hierarchy roots).cycles.find? id = some cycle ↔
    graph.cycles.find? id = some cycle ∧
      ∃ step ∈ graph.forest.steps, graph.Anchors hierarchy roots step id := by
  refine OrderedMap.find?_filter.trans ?_
  rw [List.contains_iff_mem, mem_keptCycles]

theorem getElem?_spread {number : StepId} : (graph.spread hierarchy roots).forest.steps[number]? =
    graph.forest.steps[number]?.map (graph.spreadStep hierarchy roots) :=
  List.getElem?_map

theorem contains_spread : (graph.spread hierarchy roots).cycles.contains id =
    (graph.keptCycles hierarchy roots).contains id := by
  rw [Bool.eq_iff_iff, OrderedMap.contains_iff, List.contains_iff_mem, mem_keptCycles]
  constructor
  · rintro ⟨cycle, found⟩
    exact (find?_spread.mp found).2
  · rintro ⟨step, member, eligible, cycle, found, meets⟩
    exact ⟨cycle, find?_spread.mpr ⟨found, step, member, eligible, cycle, found, meets⟩⟩

theorem mem_types_spreadStep {type : Iri} : type ∈ (graph.spreadStep hierarchy roots step).types ↔
    type ∈ step.types ∨ graph.isEligible roots step = true ∧
      ∃ asserted ∈ graph.assertedNear step, type ∈ hierarchy.below asserted := by
  have widened := @mem_stepTypes? graph hierarchy roots step type
  unfold spreadStep
  cases chosen : graph.stepTypes? hierarchy roots step with
  | none =>
    have nothing : ¬(graph.isEligible roots step = true ∧ type ∈ graph.newTypes hierarchy step) := by
      simpa [chosen] using widened
    rw [Option.getD_none]
    refine (or_iff_left ?_).symm
    rintro ⟨eligible, below⟩
    exact nothing ⟨eligible, mem_newTypes.mpr (Or.inr below)⟩
  | some types =>
    have eligible : graph.isEligible roots step = true := by
      unfold stepTypes? at chosen
      split at chosen
      · next takesPart => exact (Bool.and_eq_true_iff.mp takesPart).2
      · cases chosen
    simp only [chosen, Option.some.injEq, exists_eq_left', eligible, true_and, mem_newTypes] at widened
    simpa only [Option.getD_some, eligible, true_and] using widened

theorem mem_starts_spreadStep (member : step ∈ graph.forest.steps) :
    id ∈ (graph.spreadStep hierarchy roots step).cycleStarts ↔
      graph.Anchors hierarchy roots step id ∨
        id ∈ step.cycleStarts ∧ id ∈ graph.keptCycles hierarchy roots := by
  have kept : graph.Anchors hierarchy roots step id → id ∈ graph.keptCycles hierarchy roots :=
    fun anchored => mem_keptCycles.mpr ⟨step, member, anchored⟩
  unfold spreadStep
  rw [OrderedSet.mem_filter, OrderedSet.mem_insertAll, mem_anchoredAt, List.contains_iff_mem,
    or_and_right]
  exact or_congr (and_iff_left_of_imp kept) Iff.rfl

end
end PlanGraph.Graph
