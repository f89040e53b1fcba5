import PlanGraph.Graph.Propagation
import PlanGraph.Proofs.Graph.Trie

/-! Siblings in an initial graph. Patterns are served by leaves only, and every leaf serves some, so the
patterns near a step are those of the leaf beside it. -/

set_option autoImplicit false
namespace PlanGraph

section
variable {plan : Plan} {hierarchy : Hierarchy} {graph : Graph} {id : StepId} {step : Step}

theorem Plan.Initial.pattern_of_serves (initial : plan.Initial hierarchy graph)
    (found : graph.forest.steps[id]? = some step) {served : PatternId} (serves : served ∈ step.patterns) :
    ∃ pattern, graph.pattern? served = some pattern := by
  obtain ⟨_, inclusion, member, rfl⟩ := initial.madeOf.leaf_of_serves found serves
  exact ⟨_, initial.pattern?_eq_some.mpr ⟨pattern_of_mem_inclusions member, rfl⟩⟩

/-- A leaf beside the step serves only patterns with roots as their subjects. -/
def Graph.Eligible (graph : Graph) (roots : Roots) (step : Step) : Prop :=
  ∃ leaf, graph.forest.LeafBeside step leaf ∧ ∀ id, id ∈ leaf.patterns →
    ∃ pattern, graph.pattern? id = some pattern ∧ roots.contains pattern.subject = true

def Graph.AssertedBeside (graph : Graph) (step : Step) (type : Iri) : Prop :=
  ∃ leaf, graph.forest.LeafBeside step leaf ∧ ∃ id, id ∈ leaf.patterns ∧
    ∃ pattern, graph.pattern? id = some pattern ∧ pattern.assertedType? = some type

theorem Plan.Initial.isEligible_iff (initial : plan.Initial hierarchy graph) {roots : Roots} :
    graph.isEligible roots step = true ↔ graph.Eligible roots step := by
  have rooted (served : PatternId) :
      (graph.pattern? served).any (fun pattern => roots.contains pattern.subject) = true ↔
        ∃ pattern, graph.pattern? served = some pattern ∧ roots.contains pattern.subject = true := by
    cases graph.pattern? served <;> simp
  unfold Graph.isEligible Graph.Eligible
  simp only [Bool.and_eq_true, Bool.not_eq_true', List.all_eq_true, rooted,
    OrderedSet.isEmpty_eq_false_iff]
  constructor
  · rintro ⟨⟨served, near⟩, all⟩
    obtain ⟨leaf, beside, _⟩ := initial.madeOf.mem_nearPatterns.mp near
    exact ⟨leaf, beside, fun id serves => all id (initial.madeOf.mem_nearPatterns.mpr ⟨leaf, beside, serves⟩)⟩
  · rintro ⟨leaf, beside, all⟩
    -- A leaf serves a pattern, so an eligible step is never eligible for want of patterns.
    have near : ∃ served, served ∈ graph.forest.nearPatterns step := by
      obtain ⟨sibling, below, found, closes⟩ := beside
      obtain ⟨served, serves⟩ := initial.madeOf.serves_of_leaf found closes
      exact ⟨served, initial.madeOf.mem_nearPatterns.mpr ⟨leaf, ⟨sibling, below, found, closes⟩, serves⟩⟩
    refine ⟨near, fun id near => ?_⟩
    obtain ⟨other, alsoBeside, serves⟩ := initial.madeOf.mem_nearPatterns.mp near
    exact all id (initial.links.leaf_unique alsoBeside beside ▸ serves)

theorem Plan.Initial.mem_assertedNear (initial : plan.Initial hierarchy graph) {type : Iri} :
    type ∈ graph.assertedNear step ↔ graph.AssertedBeside step type ∧ type ∈ step.types := by
  unfold Graph.assertedNear Graph.AssertedBeside
  rw [List.mem_filter, OrderedSet.contains_iff, List.mem_filterMap]
  refine and_congr_left fun _ => ⟨?_, ?_⟩
  · rintro ⟨id, near, asserts⟩
    obtain ⟨leaf, beside, serves⟩ := initial.madeOf.mem_nearPatterns.mp near
    obtain ⟨pattern, known, asserts⟩ := Option.bind_eq_some_iff.mp asserts
    exact ⟨leaf, beside, id, serves, pattern, known, asserts⟩
  · rintro ⟨leaf, beside, id, serves, pattern, known, asserts⟩
    exact ⟨id, initial.madeOf.mem_nearPatterns.mpr ⟨leaf, beside, serves⟩,
      Option.bind_eq_some_iff.mpr ⟨pattern, known, asserts⟩⟩

end
end PlanGraph
