import PlanGraph.Proofs.Graph.Compilation
import PlanGraph.Proofs.Graph.Failures
import PlanGraph.Proofs.Graph.Propagation
import PlanGraph.Proofs.Hierarchy.Declarations

/-! When compilation succeeds. It asks for the first types of cycles, for types that leaves assert about
roots, and for starting types. Whatever else it asks for lies below such a type, so it is known then. -/

set_option autoImplicit false
namespace PlanGraph

/-- Leaves that serve patterns about roots only assert known types. -/
def Graph.LeavesKnown (graph : Graph) (hierarchy : Hierarchy) (roots : Roots) : Prop :=
  ∀ leaf ∈ graph.forest.steps, leaf.label = .leaf →
    (∀ id, id ∈ leaf.patterns →
      ∃ pattern, graph.pattern? id = some pattern ∧ roots.contains pattern.subject = true) →
    ∀ id, id ∈ leaf.patterns → ∀ pattern, graph.pattern? id = some pattern →
      ∀ type, pattern.assertedType? = some type → hierarchy.contains type = true

def Plan.StartsKnown (plan : Plan) (hierarchy : Hierarchy) : Prop :=
  ∀ entry ∈ plan.entries, ∀ path ∈ entry.paths, ∀ type,
    path.startingType? entry.pattern = some type → hierarchy.contains type = true

theorem PlannedPath.asserted_at_end {path : PlannedPath} {pattern : TriplePattern} {type : Iri}
    (asserts : pattern.assertedType? = some type) :
    (path.types pattern)[(path.labels pattern).length - 1]? = some type := by
  simp [types, labels, asserts]

namespace Plan.Initial
variable {plan : Plan} {hierarchy : Hierarchy} {roots : Roots} {graph : Graph}

theorem asserted_expected (initial : plan.Initial hierarchy graph) {id : StepId} {leaf : Step}
    (found : graph.forest.steps[id]? = some leaf) {served : PatternId} (serves : served ∈ leaf.patterns)
    {pattern : TriplePattern} (named : graph.pattern? served = some pattern) {type : Iri}
    (asserts : pattern.assertedType? = some type) : type ∈ leaf.types := by
  obtain ⟨above, _, here⟩ := initial.links.exists_at found
  have explains := initial.explains (by simp [Place.below]) here found
  obtain ⟨other, path, ends, known⟩ := (explains.patterns served).mp serves
  cases named.symm.trans known
  refine (explains.types type).mpr ⟨pattern, path, .of_ends ends, ?_⟩
  rw [← ends.2.2]
  exact PlannedPath.asserted_at_end asserts

theorem assertedKnown_iff (initial : plan.Initial hierarchy graph) :
    graph.AssertedKnown hierarchy roots ↔ graph.LeavesKnown hierarchy roots := by
  constructor
  · intro known leaf member closes rooted id serves pattern named type asserts
    obtain ⟨number, found⟩ := List.getElem?_of_mem member
    have below := (initial.links.mem_childrenOf_iff found).mpr rfl
    have beside : graph.forest.LeafBeside leaf leaf := ⟨number, below, found, closes⟩
    have expected := initial.asserted_expected found serves named asserts
    refine known leaf member (initial.isEligible_iff.mpr ⟨leaf, beside, rooted⟩) type ?_
    exact initial.mem_assertedNear.mpr ⟨⟨leaf, beside, id, serves, pattern, named, asserts⟩, expected⟩
  · intro known step member eligible type near
    obtain ⟨leaf, beside, rooted⟩ := initial.isEligible_iff.mp eligible
    obtain ⟨⟨other, also, id, serves, pattern, named, asserts⟩, _⟩ := initial.mem_assertedNear.mp near
    cases initial.links.leaf_unique also beside
    obtain ⟨number, _, found, closes⟩ := beside
    exact known leaf (List.mem_of_getElem? found) closes rooted id serves pattern named type asserts

theorem sourcesKnown_iff (initial : plan.Initial hierarchy graph) :
    Graph.SourcesKnown hierarchy graph.forest.trees ↔ plan.StartsKnown hierarchy := by
  constructor
  · intro known entry inside path member type starts
    have included := PlanEntry.mem_includedPaths.mpr ⟨member, starts⟩
    have listed := mem_inclusions_of_included inside included graph.cycles
    obtain ⟨id, tree, planted, _, source⟩ :=
      (initial.madeOf.bears (.tree (fingerprint path.seeds) (.source type))).mpr ⟨_, listed, rfl, rfl⟩
    exact known tree (List.mem_of_getElem? planted) type source
  · intro known tree member type source
    obtain ⟨inclusion, listed, _, rfl⟩ :=
      (initial.madeOf.tree_carries_iff member (.source type)).mp source
    obtain ⟨entry, inside, listed⟩ := List.mem_flatMap.mp listed
    obtain ⟨⟨path, start⟩, included, rfl⟩ := List.mem_map.mp listed
    obtain ⟨member, starts⟩ := PlanEntry.mem_includedPaths.mp included
    exact known entry inside path member start starts

theorem cyclesKnown (initial : plan.Initial hierarchy graph) (declared : hierarchy.Declared) :
    graph.CyclesKnown hierarchy := by
  intro id cycle found type member
  obtain ⟨first, rest, _, known, types⟩ := initial.cycle_start found
  rw [types] at member
  exact declared.closed.contains_below known member

end Plan.Initial

theorem Graph.cycles_of_widen {graph : Graph} {hierarchy : Hierarchy} {roots : Roots}
    {widening : Widening} (widened : graph.widen hierarchy roots = .ok widening) :
    widening.graph.cycles = graph.cycles := by
  by_cases known : graph.AssertedKnown hierarchy roots
  · rw [widen_of_known known] at widened
    cases widened
    rfl
  · obtain ⟨error, fails⟩ := widen_of_unknown known
    rw [fails] at widened
    cases widened

/-- When building and compilation succeed, and what their failures say. -/
structure Plan.Outcome (plan : Plan) (hierarchy : Hierarchy) (roots : Roots) : Prop where
  builds : (∃ initial, plan.initialGraph hierarchy = .ok initial) ↔
    hierarchy.CanMeet (cycleRequests plan.entries)
  compiles : (∃ graph, plan.compile hierarchy roots = .ok graph) ↔
    hierarchy.CanMeet (cycleRequests plan.entries) ∧
      (∀ initial, plan.initialGraph hierarchy = .ok initial → initial.LeavesKnown hierarchy roots) ∧
      plan.StartsKnown hierarchy
  fails : ∀ error, plan.compile hierarchy roots = .error error → ¬hierarchy.contains error.type = true
  anchors : ∀ initial widening, plan.initialGraph hierarchy = .ok initial →
    initial.widen hierarchy roots = .ok widening →
      ∃ anchors, widening.graph.anchorTypes hierarchy = .ok anchors

/-- Compilation succeeds exactly if the types that the plan itself names are known where they are asked
for: closures never lead to others. -/
theorem compile_outcome {hierarchy : Hierarchy} (declared : hierarchy.Declared) (plan : Plan)
    (roots : Roots) : plan.Outcome hierarchy roots where
  builds := by
    rcases initialGraph_spec plan hierarchy with ⟨met, initial, _, built⟩ | ⟨unmet, error, fails⟩
    · exact iff_of_true ⟨initial, built⟩ met
    · refine iff_of_false ?_ unmet
      rintro ⟨initial, built⟩
      cases fails.symm.trans built
  compiles := by
    simp only [Graph.compile_eq_ok_iff]
    constructor
    · rintro ⟨_, initial, built, known, _⟩
      obtain ⟨met, represents⟩ := Plan.Initial.of_ok built
      refine ⟨met, fun other again => ?_, represents.sourcesKnown_iff.mp known.sources⟩
      cases built.symm.trans again
      exact represents.assertedKnown_iff.mp known.asserted
    -- Known leaves and starts are all that propagation and finishing ask for beside the cycles.
    · rintro ⟨met, leaves, starts⟩
      rcases initialGraph_spec plan hierarchy with ⟨_, initial, represents, built⟩ | ⟨unmet, _⟩
      · have known : initial.Known hierarchy roots :=
          ⟨represents.assertedKnown_iff.mpr (leaves initial built), represents.cyclesKnown declared,
            represents.sourcesKnown_iff.mpr starts⟩
        exact ⟨_, initial, built, known, rfl⟩
      · exact absurd met unmet
  fails := plan.compile_failsOnly roots
  anchors := fun initial widening built widened => by
    have represents := (Plan.Initial.of_ok built).2
    have known : widening.graph.CyclesKnown hierarchy := by
      intro id cycle found
      rw [Graph.cycles_of_widen widened] at found
      exact represents.cyclesKnown declared id cycle found
    exact ⟨_, Graph.anchorTypes_of_known known⟩

theorem compile_outcome_group : groupTypes.Declared ∧ groupPlan.Outcome groupTypes ⟨.ofList ["x"], ∅⟩ := by
  have declared : groupTypes.Declared := Hierarchy.Declared.empty.addSubtype "Author" "Person"
  exact ⟨declared, compile_outcome declared groupPlan ⟨.ofList ["x"], ∅⟩⟩

end PlanGraph
