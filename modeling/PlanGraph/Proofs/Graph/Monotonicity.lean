import Mathlib.Data.List.Forall2
import PlanGraph.Proofs.Graph.Compilation
import PlanGraph.Proofs.Graph.Trie

/-! Compilation with more roots and more declared types. The trees and steps stay the same, and nothing
that is expected, started or described is lost. -/

set_option autoImplicit false
namespace PlanGraph

structure Roots.Within (few many : Roots) : Prop where
  variableNames : ∀ name, name ∈ few.variableNames → name ∈ many.variableNames
  iris : ∀ iri, iri ∈ few.iris → iri ∈ many.iris

structure Step.ContainedIn (step other : Step) : Prop where
  parent : step.parent = other.parent
  label : step.label = other.label
  children : step.children = other.children
  patterns : step.patterns = other.patterns
  check : step.check = other.check
  types : ∀ type, type ∈ step.types → type ∈ other.types
  cycleStarts : ∀ id, id ∈ step.cycleStarts → id ∈ other.cycleStarts

structure SearchTree.ContainedIn (tree other : SearchTree) : Prop where
  fingerprint : tree.fingerprint = other.fingerprint
  seeds : tree.seeds = other.seeds
  length : tree.length = other.length
  children : tree.children = other.children
  patterns : tree.patterns = other.patterns
  cycles : ∀ id, id ∈ tree.cycles → id ∈ other.cycles

structure Cycle.ContainedIn (cycle other : Cycle) : Prop where
  steps : cycle.steps = other.steps
  types : ∀ type, type ∈ cycle.types → type ∈ other.types

structure Graph.ContainedIn (graph other : Graph) : Prop where
  prefixes : graph.prefixes = other.prefixes
  spaces : graph.spaces = other.spaces
  patterns : graph.patterns = other.patterns
  trees : List.Forall₂ SearchTree.ContainedIn graph.forest.trees other.forest.trees
  steps : List.Forall₂ Step.ContainedIn graph.forest.steps other.forest.steps
  cycles : ∀ id cycle, graph.cycles.find? id = some cycle →
    ∃ larger, other.cycles.find? id = some larger ∧ cycle.ContainedIn larger

theorem Roots.Within.contains {few many : Roots} (within : few.Within many) {term : PatternTerm}
    (rooted : few.contains term = true) : many.contains term = true := by
  unfold Roots.contains at rooted ⊢
  split at rooted
  · exact OrderedSet.contains_iff.mpr (within.variableNames _ (OrderedSet.contains_iff.mp rooted))
  · exact OrderedSet.contains_iff.mpr (within.iris _ (OrderedSet.contains_iff.mp rooted))
  · cases rooted

theorem Hierarchy.Within.cycle? {small large : Hierarchy} (within : small.Within large)
    {steps : List PathStep} {cycle : Cycle} (described : small.cycle? steps = some cycle) :
    ∃ larger, large.cycle? steps = some larger ∧ cycle.ContainedIn larger := by
  obtain ⟨first, rest, rfl, known, rfl⟩ := Hierarchy.cycle?_eq_some.mp described
  exact ⟨_, Hierarchy.cycle?_eq_some.mpr ⟨first, rest, rfl, within.contains known, rfl⟩, rfl,
    fun _ => within.below⟩

/-- Initial graphs that differ in their cycles only, where the second knows more of them. -/
structure Graph.GrowsInto (graph other : Graph) : Prop where
  prefixes : graph.prefixes = other.prefixes
  spaces : graph.spaces = other.spaces
  patterns : graph.patterns = other.patterns
  forest : graph.forest = other.forest
  cycles : ∀ id cycle, graph.cycles.find? id = some cycle →
    ∃ larger, other.cycles.find? id = some larger ∧ cycle.ContainedIn larger

section
variable {plan : Plan} {small large : Hierarchy} {graph other : Graph}

theorem Hierarchy.CanMeet.described (met : small.CanMeet (cycleRequests plan.entries))
    (initial : plan.Initial small graph) {id : CycleId} : graph.cycles.contains id = true ↔
      ∃ first rest, (cycleRequests plan.entries).lookup id = some (first :: rest) := by
  rw [OrderedMap.contains_iff]
  simp only [initial.cycles, Option.bind_eq_some_iff]
  constructor
  · rintro ⟨cycle, steps, found, described⟩
    obtain ⟨first, rest, rfl, _⟩ := Hierarchy.cycle?_eq_some.mp described
    exact ⟨first, rest, found⟩
  · rintro ⟨first, rest, found⟩
    exact ⟨_, _, found, Hierarchy.cycle?_eq_some.mpr ⟨first, rest, rfl, met _ _ found, rfl⟩⟩

theorem Plan.Initial.growsInto (within : small.Within large)
    (built : plan.initialGraph small = .ok graph) (also : plan.initialGraph large = .ok other) :
    graph.GrowsInto other := by
  obtain ⟨met, initial⟩ := Plan.Initial.of_ok built
  obtain ⟨alsoMet, otherInitial⟩ := Plan.Initial.of_ok also
  -- Both hierarchies meet all requests, so they describe the same cycles and the forests agree.
  have described (id : CycleId) : graph.cycles.contains id = other.cycles.contains id := by
    rw [Bool.eq_iff_iff, met.described initial, alsoMet.described otherInitial]
  refine ⟨?_, ?_, ?_, ?_, fun id cycle found => ?_⟩
  · rw [initial.prefixes, otherInitial.prefixes]
  · rw [initial.spaces, otherInitial.spaces]
  · rw [initial.patterns, otherInitial.patterns]
  · rw [initial.forest, otherInitial.forest, inclusions_congr fun request _ => described request.1]
  · rw [initial.cycles] at found
    obtain ⟨steps, asked, known⟩ := Option.bind_eq_some_iff.mp found
    obtain ⟨larger, alsoKnown, contained⟩ := within.cycle? known
    refine ⟨larger, ?_, contained⟩
    rw [otherInitial.cycles, asked]
    exact alsoKnown

end

namespace Graph.GrowsInto
variable {graph other : Graph} {small large : Hierarchy} {few many : Roots} {step : Step}

theorem isEligible (grows : graph.GrowsInto other) (within : few.Within many)
    (eligible : graph.isEligible few step = true) : other.isEligible many step = true := by
  unfold Graph.isEligible at eligible ⊢
  rw [Bool.and_eq_true, List.all_eq_true] at eligible ⊢
  rw [← grows.forest]
  refine ⟨eligible.1, fun id near => ?_⟩
  have rooted := eligible.2 id near
  have named : other.pattern? id = graph.pattern? id := by
    rw [Graph.pattern?, Graph.pattern?, grows.patterns]
  rw [named]
  cases known : graph.pattern? id with
  | none => simp [known] at rooted
  | some pattern =>
    rw [known] at rooted
    exact within.contains rooted

theorem assertedNear (grows : graph.GrowsInto other) (step : Step) :
    other.assertedNear step = graph.assertedNear step := by
  unfold Graph.assertedNear Graph.pattern?
  rw [grows.forest, grows.patterns]

theorem newTypes (grows : graph.GrowsInto other) (larger : small.Within large) {type : Iri}
    (expected : type ∈ graph.newTypes small step) : type ∈ other.newTypes large step := by
  rw [Graph.mem_newTypes] at expected ⊢
  rw [grows.assertedNear]
  refine expected.imp_right ?_
  rintro ⟨asserted, near, below⟩
  exact ⟨asserted, near, larger.below below⟩

theorem anchors (grows : graph.GrowsInto other) (larger : small.Within large) (within : few.Within many)
    {id : CycleId} (anchors : graph.Anchors small few step id) : other.Anchors large many step id := by
  obtain ⟨eligible, cycle, found, type, expected, root, inside, below⟩ := anchors
  obtain ⟨more, alsoFound, contained⟩ := grows.cycles id cycle found
  exact ⟨grows.isEligible within eligible, more, alsoFound, type, grows.newTypes larger expected, root,
    contained.types root inside, larger.below below⟩

theorem keptCycles (grows : graph.GrowsInto other) (larger : small.Within large)
    (within : few.Within many) {id : CycleId} (kept : id ∈ graph.keptCycles small few) :
    id ∈ other.keptCycles large many := by
  obtain ⟨step, member, anchors⟩ := Graph.mem_keptCycles.mp kept
  exact Graph.mem_keptCycles.mpr ⟨step, grows.forest ▸ member, grows.anchors larger within anchors⟩

theorem isPromoted (grows : graph.GrowsInto other) : other.isPromoted step ↔ graph.isPromoted step := by
  unfold Graph.isPromoted
  rw [grows.patterns]

theorem gainedSeeds (grows : graph.GrowsInto other) (tree : SearchTree) :
    other.gainedSeeds tree = graph.gainedSeeds tree := by
  unfold Graph.gainedSeeds
  rw [grows.forest, grows.patterns]

theorem step_containedIn (grows : graph.GrowsInto other) (larger : small.Within large)
    (within : few.Within many) (member : step ∈ graph.forest.steps) :
    (graph.compiledStep small few step).ContainedIn (other.compiledStep large many step) := by
  have kept := graph.compiledStep_others small few step
  have alsoKept := other.compiledStep_others large many step
  have field {β : Type} (view : Step → β) : _ = _ := (congrArg view kept).trans (congrArg view alsoKept).symm
  refine ⟨field Step.parent, field Step.label, field Step.children, field Step.patterns,
    field Step.check, fun type expected => ?_, fun id starts => ?_⟩
  · rw [Graph.mem_types_compiledStep] at expected ⊢
    rw [grows.assertedNear]
    refine expected.imp_right ?_
    rintro ⟨eligible, asserted, near, below⟩
    exact ⟨grows.isEligible within eligible, asserted, near, larger.below below⟩
  · rw [Graph.mem_starts_compiledStep member] at starts
    rw [Graph.mem_starts_compiledStep (grows.forest ▸ member), grows.isPromoted]
    refine ⟨starts.1, starts.2.imp (grows.anchors larger within) ?_⟩
    rintro ⟨before, kept⟩
    exact ⟨before, grows.keptCycles larger within kept⟩

theorem tree_containedIn (grows : graph.GrowsInto other) (larger : small.Within large)
    (within : few.Within many) (tree : SearchTree) :
    (graph.compiledTree small few tree).ContainedIn (other.compiledTree large many tree) := by
  have kept := graph.compiledTree_others small few tree
  have alsoKept := other.compiledTree_others large many tree
  have field {β : Type} (view : SearchTree → β) : _ = _ :=
    (congrArg view kept).trans (congrArg view alsoKept).symm
  refine ⟨field SearchTree.fingerprint, OrderedSet.ext fun seed => ?_, field SearchTree.length,
    field SearchTree.children, field SearchTree.patterns, fun id mentioned => ?_⟩
  · rw [Graph.mem_seeds_compiledTree, Graph.mem_seeds_compiledTree, grows.gainedSeeds]
  · rw [Graph.mem_cycles_compiledTree] at mentioned ⊢
    exact ⟨mentioned.1, grows.keptCycles larger within mentioned.2⟩

theorem compiled (grows : graph.GrowsInto other) (larger : small.Within large)
    (within : few.Within many) : (graph.compiled small few).ContainedIn (other.compiled large many) where
  prefixes := grows.prefixes
  spaces := grows.spaces
  patterns := grows.patterns
  trees := by
    rw [Graph.compiled_trees, Graph.compiled_trees, ← grows.forest, List.forall₂_map_left_iff,
      List.forall₂_map_right_iff, List.forall₂_same]
    exact fun tree _ => grows.tree_containedIn larger within tree
  steps := by
    rw [Graph.compiled_steps, Graph.compiled_steps, ← grows.forest, List.forall₂_map_left_iff,
      List.forall₂_map_right_iff, List.forall₂_same]
    exact fun step member => grows.step_containedIn larger within member
  cycles := fun id cycle found => by
    obtain ⟨before, step, member, anchors⟩ := Graph.find?_spread.mp found
    obtain ⟨more, alsoBefore, contained⟩ := grows.cycles id cycle before
    exact ⟨more, Graph.find?_spread.mpr ⟨alsoBefore, step, grows.forest ▸ member,
      grows.anchors larger within anchors⟩, contained⟩

end Graph.GrowsInto

/-- Adding roots, types and subtypes to a compilation loses nothing. -/
theorem compile_monotone {plan : Plan} {small large : Hierarchy} {few many : Roots}
    {graph other : Graph} (larger : small.Within large) (within : few.Within many)
    (compiled : plan.compile small few = .ok graph) (also : plan.compile large many = .ok other) :
    graph.ContainedIn other := by
  obtain ⟨initial, built, _, rfl⟩ := Graph.compile_eq_ok_iff.mp compiled
  obtain ⟨otherInitial, alsoBuilt, _, rfl⟩ := Graph.compile_eq_ok_iff.mp also
  exact (Plan.Initial.growsInto larger built alsoBuilt).compiled larger within

def personTypes : Hierarchy := Hierarchy.empty.addType "Person"

theorem compile_monotone_group : personTypes.Within groupTypes ∧
    Roots.Within ⟨∅, ∅⟩ ⟨.ofList ["x"], ∅⟩ ∧ ∃ graph other,
      groupPlan.compile personTypes ⟨∅, ∅⟩ = .ok graph ∧
      groupPlan.compile groupTypes ⟨.ofList ["x"], ∅⟩ = .ok other ∧ graph.ContainedIn other := by
  have types : ∀ type ∈ personTypes.types.elements, type ∈ groupTypes.types.elements := by decide
  have larger : personTypes.Within groupTypes := ⟨types, by decide⟩
  have within : Roots.Within ⟨∅, ∅⟩ ⟨.ofList ["x"], ∅⟩ :=
    ⟨fun name member => absurd member (OrderedSet.not_mem_none name), fun _ member => member⟩
  have compiles : (groupPlan.compile personTypes ⟨∅, ∅⟩).isOk = true := by decide +kernel
  have alsoCompiles : (groupPlan.compile groupTypes ⟨.ofList ["x"], ∅⟩).isOk = true := by decide +kernel
  obtain ⟨graph, compiled⟩ := exists_ok compiles
  obtain ⟨other, also⟩ := exists_ok alsoCompiles
  exact ⟨larger, within, graph, other, compiled, also, compile_monotone larger within compiled also⟩

end PlanGraph
