import PlanGraph.Proofs.Graph.Edits
import PlanGraph.Proofs.Graph.Spread

/-! Widening in place. A visit changes only the types of the step visited, so what later visits read of
patterns near their steps is what the graph said before the first visit. -/

set_option autoImplicit false
namespace PlanGraph

theorem Forest.nearPatterns_congr {first second : Forest}
    (trees : ∀ id : TreeId, second.trees[id]?.map SearchTree.children =
      first.trees[id]?.map SearchTree.children)
    (children : ∀ id : StepId, second.steps[id]?.map Step.children = first.steps[id]?.map Step.children)
    (patterns : ∀ id : StepId, second.steps[id]?.map Step.patterns = first.steps[id]?.map Step.patterns)
    (step : Step) : second.nearPatterns step = first.nearPatterns step := by
  have siblings : second.childrenOf step.parent = first.childrenOf step.parent := by
    cases step.parent with
    | tree id => simp only [childrenOf, trees]
    | step id => simp only [childrenOf, children]
  unfold nearPatterns
  simp only [siblings, patterns]

namespace Graph

/-! Visiting the steps. -/

section
variable (graph : Graph) (hierarchy : Hierarchy) (roots : Roots)

def widenedStep (step : Step) : Step :=
  { step with types := (graph.stepTypes? hierarchy roots step).getD step.types }

/-- The graph after the visits of the first steps. -/
def visited (count : Nat) : Widening where
  graph := graph.withSteps fun id step =>
    if id < count then graph.widenedStep hierarchy roots step else step
  widened := (List.range count).filterMap fun id =>
    (graph.forest.steps[id]?.bind (graph.stepTypes? hierarchy roots)).map (id, ·)

end

section
variable {graph : Graph} {hierarchy : Hierarchy} {roots : Roots} {step : Step} {count : Nat}

theorem widenedTypes?_of_known (known : graph.StepKnown hierarchy roots step) :
    graph.widenedTypes? hierarchy roots step = .ok (graph.stepTypes? hierarchy roots step) := by
  unfold widenedTypes? stepTypes?
  split
  · next takesPart =>
    have eligible := (Bool.and_eq_true_iff.mp takesPart).2
    rw [widenedTypes, Hierarchy.subtypesOfAll_of_known (known eligible)]
    rfl
  · rfl

theorem widenedTypes?_of_unknown (unknown : ¬graph.StepKnown hierarchy roots step) :
    ∃ error, graph.widenedTypes? hierarchy roots step = .error error := by
  simp only [StepKnown, Classical.not_forall] at unknown
  obtain ⟨eligible, type, asserted, missing⟩ := unknown
  obtain ⟨error, fails⟩ := Hierarchy.subtypesOfAll_of_unknown asserted missing
  have nonempty := OrderedSet.isEmpty_eq_false_iff.mpr ⟨type, expected_of_assertedNear asserted⟩
  refine ⟨error, ?_⟩
  unfold widenedTypes?
  rw [nonempty, eligible, widenedTypes, fails]
  rfl

/-- Visits do not change what later visits read of other steps. -/
theorem widenedTypes?_visited : (graph.visited hierarchy roots count).graph.widenedTypes? hierarchy roots
    step = graph.widenedTypes? hierarchy roots step := by
  -- Visited steps differ from the others in their types only.
  have kept {β : Type} (view : Step → β) (same : ∀ before : Step,
      view (graph.widenedStep hierarchy roots before) = view before) (id : StepId) :
      (graph.visited hierarchy roots count).graph.forest.steps[id]?.map view =
        graph.forest.steps[id]?.map view := by
    unfold visited
    rw [getElem?_withSteps, Option.map_map]
    refine congrArg (fun change => Option.map change _) (funext fun before => ?_)
    rw [Function.comp_apply]
    split
    · exact same before
    · rfl
  have trees : (graph.visited hierarchy roots count).graph.forest.trees = graph.forest.trees := rfl
  have near (step : Step) : (graph.visited hierarchy roots count).graph.forest.nearPatterns step =
      graph.forest.nearPatterns step :=
    Forest.nearPatterns_congr (fun _ => by rw [trees]) (kept Step.children fun _ => rfl)
      (kept Step.patterns fun _ => rfl) step
  unfold widenedTypes? widenedTypes isEligible assertedNear
  simp only [near]
  rfl

theorem getElem?_visited : (graph.visited hierarchy roots count).graph.forest.steps[count]? =
    graph.forest.steps[count]? := by
  unfold visited
  rw [getElem?_withSteps]
  simp

theorem graph_visited_succ (there : graph.forest.steps[count]? = some step) :
    (graph.visited hierarchy roots (count + 1)).graph =
      (graph.visited hierarchy roots count).graph.withSteps fun id before =>
        if id = count then graph.widenedStep hierarchy roots step else before := by
  unfold visited
  rw [withSteps_withSteps]
  refine withSteps_congr fun id before was => ?_
  by_cases same : id = count
  · subst same
    cases there.symm.trans was
    simp
  · have earlier : id < count + 1 ↔ id < count := Nat.lt_succ_iff_lt_or_eq.trans (or_iff_left same)
    simp only [earlier, same, if_false]

theorem widened_visited_succ (there : graph.forest.steps[count]? = some step) :
    (graph.visited hierarchy roots (count + 1)).widened =
      (graph.visited hierarchy roots count).widened ++
        ((graph.stepTypes? hierarchy roots step).map (count, ·)).toList := by
  unfold visited
  rw [List.range_succ, List.filterMap_append]
  cases chosen : graph.stepTypes? hierarchy roots step <;> simp [there, chosen]

theorem visit_eq (there : graph.forest.steps[count]? = some step) :
    (graph.visited hierarchy roots count).visit hierarchy roots count =
      (graph.widenedTypes? hierarchy roots step).map fun chosen =>
        chosen.elim (graph.visited hierarchy roots count) fun types =>
          ⟨(graph.visited hierarchy roots count).graph.setTypes count types,
            (graph.visited hierarchy roots count).widened ++ [(count, types)]⟩ := by
  unfold Widening.visit
  rw [getElem?_visited, there]
  dsimp only
  rw [widenedTypes?_visited]
  refine congrArg (Except.map · _) (funext fun chosen => ?_)
  cases chosen <;> rfl

theorem visit_visited (there : graph.forest.steps[count]? = some step)
    (known : graph.StepKnown hierarchy roots step) :
    (graph.visited hierarchy roots count).visit hierarchy roots count =
      .ok (graph.visited hierarchy roots (count + 1)) := by
  rw [visit_eq there, widenedTypes?_of_known known]
  have found : (graph.visited hierarchy roots count).graph.forest.steps[count]? = some step :=
    getElem?_visited.trans there
  have changed : (graph.visited hierarchy roots (count + 1)).graph = _ := graph_visited_succ there
  have listed : (graph.visited hierarchy roots (count + 1)).widened = _ := widened_visited_succ there
  refine congrArg Except.ok ?_
  cases chosen : graph.stepTypes? hierarchy roots step with
  | none =>
    -- The step takes no part, so the next state is the same one.
    rw [chosen, Option.map_none, Option.toList_none, List.append_nil] at listed
    rw [withSteps_unchanged] at changed
    · exact Widening.ext changed.symm listed.symm
    · intro id before was
      split
      · next same =>
        subst same
        cases found.symm.trans was
        simp [widenedStep, chosen]
      · rfl
  | some types =>
    rw [chosen] at listed
    refine Widening.ext (Eq.trans ?_ changed.symm) listed.symm
    refine (modifyStep_eq count fun step => { step with types }).trans (withSteps_congr ?_)
    intro id before was
    split
    · next same =>
      subst same
      cases found.symm.trans was
      simp [widenedStep, chosen]
    · rfl

theorem visits_of_known (bound : count ≤ graph.forest.steps.length)
    (known : ∀ id < count, ∀ step, graph.forest.steps[id]? = some step →
      graph.StepKnown hierarchy roots step) :
    (List.range count).foldlM (Widening.visit hierarchy roots) ⟨graph, []⟩ =
      .ok (graph.visited hierarchy roots count) := by
  induction count with
  | zero =>
    have unchanged : (graph.visited hierarchy roots 0).graph = graph :=
      withSteps_unchanged fun _ _ _ => rfl
    exact congrArg Except.ok (Widening.ext unchanged.symm rfl)
  | succ count ih =>
    have there : graph.forest.steps[count]? = some graph.forest.steps[count] :=
      List.getElem?_eq_getElem bound
    have before := ih (Nat.le_of_succ_le bound) fun id earlier => known id (Nat.lt_succ_of_lt earlier)
    have next := visit_visited there (known count (Nat.lt_succ_self count) _ there)
    rw [List.range_succ, List.foldlM_append, before]
    simp only [bind, Except.bind, List.foldlM_cons, List.foldlM_nil, next]
    rfl

theorem visits_of_unknown (bound : count ≤ graph.forest.steps.length)
    (unknown : ¬∀ id < count, ∀ step, graph.forest.steps[id]? = some step →
      graph.StepKnown hierarchy roots step) :
    ∃ error, (List.range count).foldlM (Widening.visit hierarchy roots) ⟨graph, []⟩ = .error error := by
  induction count with
  | zero => exact absurd (fun id earlier => absurd earlier (Nat.not_lt_zero id)) unknown
  | succ count ih =>
    have there : graph.forest.steps[count]? = some graph.forest.steps[count] :=
      List.getElem?_eq_getElem bound
    have bound := Nat.le_of_succ_le bound
    rw [List.range_succ, List.foldlM_append]
    -- Either all earlier visits succeed and this one fails, or an earlier one has failed already.
    by_cases earlier : ∀ id < count, ∀ step, graph.forest.steps[id]? = some step →
        graph.StepKnown hierarchy roots step
    · have last : ¬graph.StepKnown hierarchy roots graph.forest.steps[count] := by
        intro known
        refine unknown fun id reached step found => ?_
        rcases Nat.lt_succ_iff_lt_or_eq.mp reached with before | same
        · exact earlier id before step found
        · subst same
          cases there.symm.trans found
          exact known
      obtain ⟨error, fails⟩ := widenedTypes?_of_unknown last
      rw [visits_of_known bound earlier]
      simp only [bind, Except.bind, List.foldlM_cons, visit_eq there, fails, Except.map]
      exact ⟨error, rfl⟩
    · obtain ⟨error, fails⟩ := ih bound earlier
      exact ⟨error, by rw [fails]; rfl⟩

/-- Widening visits every step once, and fails if one of them asks for an unknown type. -/
theorem widen_of_known (known : graph.AssertedKnown hierarchy roots) :
    graph.widen hierarchy roots = .ok (graph.visited hierarchy roots graph.forest.steps.length) :=
  visits_of_known (Nat.le_refl _) fun _ _ step found => known step (List.mem_of_getElem? found)

theorem widen_of_unknown (unknown : ¬graph.AssertedKnown hierarchy roots) :
    ∃ error, graph.widen hierarchy roots = .error error := by
  refine visits_of_unknown (Nat.le_refl _) fun known => unknown fun step member => ?_
  obtain ⟨id, found⟩ := List.getElem?_of_mem member
  exact known id (List.getElem?_eq_some_iff.mp found).1 step found

theorem mem_widened {id : StepId} {types : OrderedSet Iri} :
    (id, types) ∈ (graph.visited hierarchy roots graph.forest.steps.length).widened ↔
      ∃ step, graph.forest.steps[id]? = some step ∧
        graph.stepTypes? hierarchy roots step = some types := by
  unfold visited
  simp only [List.mem_filterMap, List.mem_range, Option.map_eq_some_iff, Option.bind_eq_some_iff,
    Prod.mk.injEq]
  constructor
  · rintro ⟨_, _, _, ⟨step, found, chosen⟩, same, equal⟩
    subst same equal
    exact ⟨step, found, chosen⟩
  · rintro ⟨step, found, chosen⟩
    exact ⟨id, (List.getElem?_eq_some_iff.mp found).1, types, ⟨step, found, chosen⟩, rfl, rfl⟩

end
end Graph
end PlanGraph
