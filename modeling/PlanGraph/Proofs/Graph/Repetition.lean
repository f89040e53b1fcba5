import PlanGraph.Proofs.Graph.Passes
import PlanGraph.Proofs.Hierarchy.Declarations

/-! Passes that are repeated with the same types and roots. Propagation widens a step by all that lies
below a type at once, so it finds nothing to widen, to anchor or to remove the second time. Finishing
keeps types without a proper subtype beside them, and they still have none then. -/

set_option autoImplicit false
namespace PlanGraph

/-! Propagation. -/

namespace Graph
variable {graph result : Graph} {hierarchy : Hierarchy} {roots : Roots} {step : Step} {id : CycleId}

theorem nearPatterns_spread (step : Step) :
    (graph.spread hierarchy roots).forest.nearPatterns (graph.spreadStep hierarchy roots step) =
      graph.forest.nearPatterns step := by
  refine Forest.nearPatterns_congr (fun id => ?_) (fun id => ?_) (fun id => ?_) step
  · have planted : (graph.spread hierarchy roots).forest.trees[id]? =
        graph.forest.trees[id]?.map (graph.spreadTree hierarchy roots) := List.getElem?_map
    rw [planted, Option.map_map]
    rfl
  · rw [getElem?_spread, Option.map_map]
    rfl
  · rw [getElem?_spread, Option.map_map]
    rfl

/-- Eligibility depends on patterns and roots, which propagation leaves alone. -/
theorem isEligible_spread : (graph.spread hierarchy roots).isEligible roots
    (graph.spreadStep hierarchy roots step) = graph.isEligible roots step := by
  unfold isEligible
  rw [nearPatterns_spread]
  rfl

/-- A step that has been widened may expect more of the types that are asserted near it. They were added
as subtypes of one that it expected before. -/
theorem below_of_assertedNear_spread {type : Iri} (asserted : type ∈ (graph.spread hierarchy roots).assertedNear
    (graph.spreadStep hierarchy roots step)) : type ∈ graph.assertedNear step ∨
      graph.isEligible roots step = true ∧
        ∃ upper ∈ graph.assertedNear step, type ∈ hierarchy.below upper := by
  have expected := expected_of_assertedNear asserted
  unfold assertedNear at asserted
  rw [nearPatterns_spread] at asserted
  rcases mem_types_spreadStep.mp expected with before | wider
  · have near := (List.mem_filter.mp asserted).1
    exact Or.inl (List.mem_filter.mpr ⟨near, OrderedSet.contains_iff.mpr before⟩)
  · exact Or.inr wider

/-- One sweep widens by whatever a second one would find. -/
theorem mem_types_of_assertedNear_spread {asserted type : Iri} (eligible : graph.isEligible roots step = true)
    (near : asserted ∈ (graph.spread hierarchy roots).assertedNear (graph.spreadStep hierarchy roots step))
    (below : type ∈ hierarchy.below asserted) : type ∈ (graph.spreadStep hierarchy roots step).types := by
  refine mem_types_spreadStep.mpr (Or.inr ⟨eligible, ?_⟩)
  rcases below_of_assertedNear_spread near with before | ⟨_, upper, before, lower⟩
  · exact ⟨asserted, before, below⟩
  · exact ⟨upper, before, Hierarchy.below_trans lower below⟩

theorem types_spread_spread : ((graph.spread hierarchy roots).spreadStep hierarchy roots
    (graph.spreadStep hierarchy roots step)).types = (graph.spreadStep hierarchy roots step).types := by
  refine OrderedSet.ext fun type => ?_
  rw [mem_types_spreadStep, isEligible_spread]
  refine or_iff_left_of_imp ?_
  rintro ⟨eligible, asserted, near, below⟩
  exact mem_types_of_assertedNear_spread eligible near below

theorem mem_newTypes_spread {type : Iri} (eligible : graph.isEligible roots step = true) :
    type ∈ (graph.spread hierarchy roots).newTypes hierarchy (graph.spreadStep hierarchy roots step) ↔
      type ∈ graph.newTypes hierarchy step := by
  have once : type ∈ (graph.spreadStep hierarchy roots step).types ↔ type ∈ graph.newTypes hierarchy step := by
    rw [mem_types_spreadStep, mem_newTypes, and_iff_right eligible]
  rw [mem_newTypes, ← once]
  refine or_iff_left_of_imp ?_
  rintro ⟨asserted, near, below⟩
  exact mem_types_of_assertedNear_spread eligible near below

/-- A cycle is anchored at the same steps again. It is still described there, as it has an anchor. -/
theorem anchors_spread (member : step ∈ graph.forest.steps) :
    (graph.spread hierarchy roots).Anchors hierarchy roots (graph.spreadStep hierarchy roots step) id ↔
      graph.Anchors hierarchy roots step id := by
  unfold Anchors
  rw [isEligible_spread]
  refine and_congr_right fun eligible => exists_congr fun cycle => ?_
  simp only [mem_newTypes_spread eligible, find?_spread, and_assoc]
  refine and_congr_right fun found => and_iff_right_of_imp fun meets => ?_
  exact ⟨step, member, eligible, cycle, found, meets⟩

theorem mem_keptCycles_spread : id ∈ (graph.spread hierarchy roots).keptCycles hierarchy roots ↔
    id ∈ graph.keptCycles hierarchy roots := by
  rw [mem_keptCycles, mem_keptCycles]
  constructor
  · rintro ⟨_, listed, anchors⟩
    obtain ⟨step, member, rfl⟩ := List.mem_map.mp listed
    exact ⟨step, member, (anchors_spread member).mp anchors⟩
  · rintro ⟨step, member, anchors⟩
    exact ⟨_, List.mem_map_of_mem member, (anchors_spread member).mpr anchors⟩

theorem contains_keptCycles_spread : ((graph.spread hierarchy roots).keptCycles hierarchy roots).contains =
    (graph.keptCycles hierarchy roots).contains := by
  funext id
  rw [Bool.eq_iff_iff, List.contains_iff_mem, List.contains_iff_mem, mem_keptCycles_spread]

theorem spreadTree_spread (tree : SearchTree) :
    (graph.spread hierarchy roots).spreadTree hierarchy roots (graph.spreadTree hierarchy roots tree) =
      graph.spreadTree hierarchy roots tree := by
  simp only [spreadTree, contains_keptCycles_spread, OrderedSet.filter_filter, Bool.and_self]

theorem spreadStep_spread (member : step ∈ graph.forest.steps) :
    (graph.spread hierarchy roots).spreadStep hierarchy roots (graph.spreadStep hierarchy roots step) =
      graph.spreadStep hierarchy roots step := by
  have listed : graph.spreadStep hierarchy roots step ∈ (graph.spread hierarchy roots).forest.steps :=
    List.mem_map_of_mem member
  have starts : ((graph.spread hierarchy roots).spreadStep hierarchy roots
      (graph.spreadStep hierarchy roots step)).cycleStarts =
        (graph.spreadStep hierarchy roots step).cycleStarts := by
    refine OrderedSet.ext fun id => ?_
    rw [mem_starts_spreadStep listed, anchors_spread member, mem_keptCycles_spread,
      mem_starts_spreadStep member]
    tauto
  have parts (graph : Graph) (step : Step) : graph.spreadStep hierarchy roots step =
      { step with
        types := (graph.spreadStep hierarchy roots step).types
        cycleStarts := (graph.spreadStep hierarchy roots step).cycleStarts } := rfl
  rw [parts, types_spread_spread, starts]

theorem spread_spread : (graph.spread hierarchy roots).spread hierarchy roots =
    graph.spread hierarchy roots := by
  -- Trees, steps and cycles are fixed points of the sweep one by one.
  have trees : (graph.spread hierarchy roots).forest.trees.map
      ((graph.spread hierarchy roots).spreadTree hierarchy roots) =
        (graph.spread hierarchy roots).forest.trees :=
    List.map_map.trans (List.map_congr_left fun tree _ => spreadTree_spread tree)
  have steps : (graph.spread hierarchy roots).forest.steps.map
      ((graph.spread hierarchy roots).spreadStep hierarchy roots) =
        (graph.spread hierarchy roots).forest.steps :=
    List.map_map.trans (List.map_congr_left fun _ member => spreadStep_spread member)
  have cycles : ((graph.spread hierarchy roots).cycles.filter fun entry =>
      ((graph.spread hierarchy roots).keptCycles hierarchy roots).contains entry.1) =
        (graph.spread hierarchy roots).cycles := by
    rw [contains_keptCycles_spread]
    refine (OrderedMap.filter_filter graph.cycles _ _).trans ?_
    simp only [Bool.and_self]
    rfl
  calc (graph.spread hierarchy roots).spread hierarchy roots
      = { graph.spread hierarchy roots with
          forest := ⟨(graph.spread hierarchy roots).forest.trees.map
              ((graph.spread hierarchy roots).spreadTree hierarchy roots),
            (graph.spread hierarchy roots).forest.steps.map
              ((graph.spread hierarchy roots).spreadStep hierarchy roots)⟩
          cycles := (graph.spread hierarchy roots).cycles.filter fun entry =>
            ((graph.spread hierarchy roots).keptCycles hierarchy roots).contains entry.1 } := rfl
    _ = graph.spread hierarchy roots := by rw [trees, steps, cycles]

theorem assertedKnown_spread (closed : hierarchy.Closed) (known : graph.AssertedKnown hierarchy roots) :
    (graph.spread hierarchy roots).AssertedKnown hierarchy roots := by
  intro after listed eligible type asserted
  obtain ⟨step, member, rfl⟩ := List.mem_map.mp listed
  rw [isEligible_spread] at eligible
  rcases below_of_assertedNear_spread asserted with before | ⟨_, upper, before, lower⟩
  · exact known step member eligible type before
  -- Types that a sweep adds lie below known ones.
  · exact closed.contains_below (known step member eligible upper before) lower

theorem cyclesKnown_spread (known : graph.CyclesKnown hierarchy) :
    (graph.spread hierarchy roots).CyclesKnown hierarchy :=
  fun id cycle found => known id cycle (find?_spread.mp found).1

end Graph

/-- Propagation on any graph that passes make of an initial one succeeds again with the same types and
roots, and changes nothing. -/
theorem propagate_again {plan : Plan} {source hierarchy : Hierarchy} {roots : Roots}
    {initial graph result : Graph} (built : plan.initialGraph source = .ok initial)
    (passes : Relation.ReflTransGen Graph.Pass initial graph) (declared : hierarchy.Declared)
    (propagated : graph.propagate hierarchy roots = .ok result) :
    result.propagate hierarchy roots = .ok result := by
  have represents := (Plan.Initial.of_ok built).2
  have described := (Graph.passes_keep passes represents.cyclesDescribed).2
  obtain ⟨asserted, cycles, rfl⟩ := (Graph.propagate_eq_ok_iff described).mp propagated
  refine (Graph.propagate_eq_ok_iff (Graph.cyclesDescribed_spread graph hierarchy roots)).mpr ?_
  exact ⟨Graph.assertedKnown_spread declared.closed asserted, Graph.cyclesKnown_spread cycles,
    Graph.spread_spread⟩

theorem propagate_again_group : groupPlan.initialGraph groupTypes = .ok groupGraph ∧
    Relation.ReflTransGen Graph.Pass groupGraph groupGraph ∧ groupTypes.Declared ∧
      groupGraph.propagate groupTypes ⟨.ofList ["x"], ∅⟩ = .ok groupSpread ∧
      groupSpread.propagate groupTypes ⟨.ofList ["x"], ∅⟩ = .ok groupSpread := by
  have fails : groupGraph.finish .empty = (groupGraph, some ⟨"Person"⟩) := by decide +kernel
  have passes : Relation.ReflTransGen Graph.Pass groupGraph groupGraph :=
    .single (.finish .empty (some ⟨"Person"⟩) fails)
  have declared : groupTypes.Declared := Hierarchy.Declared.empty.addSubtype "Author" "Person"
  have propagated : groupGraph.propagate groupTypes ⟨.ofList ["x"], ∅⟩ = .ok groupSpread := by
    decide +kernel
  exact ⟨initialGraph_groupPlan, passes, declared, propagated,
    propagate_again initialGraph_groupPlan passes declared propagated⟩

/-! Finishing. -/

namespace Hierarchy
variable {hierarchy : Hierarchy} {types : OrderedSet Iri} {type : Iri}

def Acyclic (hierarchy : Hierarchy) : Prop :=
  ∀ first second, second ∈ hierarchy.below first → first ∈ hierarchy.below second → first = second

theorem acyclic_of_rank (rank : Iri → Nat)
    (up : ∀ edge ∈ hierarchy.edges, rank edge.source < rank edge.target) : hierarchy.Acyclic := by
  -- Along a chain of subtypes the rank drops, or the chain is empty.
  have drops {type lower : Iri} (below : lower ∈ hierarchy.below type) :
      lower = type ∨ rank lower < rank type := by
    induction mem_below.mp below with
    | refl => exact Or.inl rfl
    | @tail middle last chain step ih =>
      have step : rank last < rank middle := up _ step
      rcases ih (mem_below.mpr chain) with rfl | lower
      · exact Or.inr step
      · exact Or.inr (Nat.lt_trans step lower)
  intro first second down back
  rcases drops down with same | lower
  · exact same.symm
  · rcases drops back with same | higher
    · exact same
    · exact absurd higher (Nat.lt_asymm lower)

def FallsBack (hierarchy : Hierarchy) (types : OrderedSet Iri) : Prop :=
  (types.filter fun type => !types.elements.any fun other =>
    other != type && (hierarchy.below type).contains other).isEmpty = true

theorem fallsBack_iff : hierarchy.FallsBack types ↔ ¬∃ type, hierarchy.IsSpecific types type := by
  unfold FallsBack
  rw [OrderedSet.isEmpty_iff, not_exists]
  exact forall_congr' fun type => not_congr mem_filter_specific

theorem specific_of_fallsBack (fallback : hierarchy.FallsBack types) : hierarchy.specific types = types :=
  if_pos fallback

theorem mem_specific_of_direct (direct : ¬hierarchy.FallsBack types) :
    type ∈ hierarchy.specific types ↔ hierarchy.IsSpecific types type :=
  mem_specific.trans (or_iff_left fun fallback => direct (fallsBack_iff.mpr fallback.2))

structure Selects (hierarchy : Hierarchy) (types kept : OrderedSet Iri) : Prop where
  members : ∀ type, type ∈ kept ↔
    type ∈ types ∧ ∀ other, other ∈ types → other ∈ hierarchy.below type → other = type
  antichain : ∀ type, type ∈ kept → ∀ other, other ∈ kept → other ∈ hierarchy.below type → other = type
  direct : ¬hierarchy.FallsBack types

theorem Acyclic.selects (acyclic : hierarchy.Acyclic) (nonempty : ∃ type, type ∈ types) :
    hierarchy.Selects types (hierarchy.specific types) := by
  obtain ⟨start, member⟩ := nonempty
  have circleless : hierarchy.WithoutCircles types :=
    fun first _ second _ down back => acyclic first second down back
  obtain ⟨lowest, specific, _⟩ := circleless.exists_isSpecific member
  have direct : ¬hierarchy.FallsBack types := fun fallback => fallsBack_iff.mp fallback ⟨lowest, specific⟩
  refine ⟨fun type => mem_specific_of_direct direct, fun type kept other alsoKept below => ?_, direct⟩
  exact ((mem_specific_of_direct direct).mp kept).2 other (mem_of_mem_specific alsoKept) below

/-- Types that were kept are kept again, also if they were kept for want of a specific one. -/
theorem specific_specific : hierarchy.specific (hierarchy.specific types) = hierarchy.specific types := by
  by_cases fallback : hierarchy.FallsBack types
  · rw [specific_of_fallsBack fallback, specific_of_fallsBack fallback]
  · refine OrderedSet.ext fun type => ⟨mem_of_mem_specific, fun kept => mem_specific.mpr (Or.inl ?_)⟩
    -- Nothing has been added, so there is still no proper subtype.
    have specific := (mem_specific_of_direct fallback).mp kept
    exact ⟨kept, fun other alsoKept => specific.2 other (mem_of_mem_specific alsoKept)⟩

end Hierarchy

namespace Graph
variable {graph later : Graph} {hierarchy : Hierarchy}

theorem narrowTrees_again {trees : List SearchTree}
    (settled : ∀ tree ∈ trees, hierarchy.mostSpecific tree.fromTypes = .ok tree.fromTypes) :
    narrowTrees hierarchy trees = (trees, none) := by
  induction trees with
  | nil => rfl
  | cons tree rest ih =>
    obtain ⟨head, tail⟩ := List.forall_mem_cons.mp settled
    rw [narrowTrees, head, ih tail]

theorem promoted_again {list more : List Promotion} (made : ∀ promotion ∈ more, promotion ∈ list) :
    (graph.promoted list).promoted more = graph.promoted list := by
  have trees : gainSeeds (list ++ more) = gainSeeds list := by
    funext id tree
    unfold gainSeeds
    congr 1
    refine OrderedSet.ext fun seed => ?_
    simp only [OrderedSet.mem_insertAll, List.mem_map, List.mem_filter, List.mem_append]
    grind
  have steps : stopCycles (list ++ more) = stopCycles list := by
    funext id step
    have same : id ∈ (list ++ more).map (·.step) ↔ id ∈ list.map (·.step) := by
      simp only [List.mem_map, List.mem_append]
      grind
    simp only [stopCycles, same]
  rw [promoted_promoted, promoted, promoted, trees, steps]

theorem mem_promotions_promoted {list : List Promotion} {promotion : Promotion} :
    promotion ∈ (graph.promoted list).promotions ↔ promotion ∈ graph.promotions := by
  -- Promotions are found by children, patterns and subjects, and change none of them.
  have planted (id : TreeId) : (graph.promoted list).forest.trees[id]? =
      graph.forest.trees[id]?.map (gainSeeds list id) := List.getElem?_mapIdx
  have grown (id : StepId) : (graph.promoted list).forest.steps[id]? =
      graph.forest.steps[id]?.map (stopCycles list id) := List.getElem?_mapIdx
  have subjects (id : StepId) (step : Step) : subjectIris (graph.promoted list).patterns
      (stopCycles list id step) = subjectIris graph.patterns step := by
    unfold stopCycles
    split <;> rfl
  rw [mem_promotions, mem_promotions, planted, grown]
  simp only [Option.map_eq_some_iff, exists_exists_and_eq_and, subjects]
  rfl

theorem promoteSeeds_again : graph.promoteSeeds.promoteSeeds = graph.promoteSeeds := by
  have once : graph.promoteSeeds = graph.promoted graph.promotions := promoteAll_eq graph.promotions
  rw [once, promoteSeeds, promoteAll_eq]
  exact promoted_again fun promotion found => mem_promotions_promoted.mp found

theorem settled_of_finish (finished : graph.finish hierarchy = (later, none)) :
    ∀ tree ∈ later.forest.trees, hierarchy.mostSpecific tree.fromTypes = .ok tree.fromTypes := by
  obtain ⟨known, rfl⟩ := of_finish_succeeds finished
  intro tree member
  obtain ⟨id, there⟩ := List.getElem?_of_mem member
  rw [promoteSeeds, promoteAll_eq, promoted, withSteps, withTrees, narrowed,
    narrowTrees_of_known known] at there
  simp only [List.getElem?_mapIdx, List.getElem?_map, Option.map_map, Option.map_eq_some_iff] at there
  obtain ⟨before, was, rfl⟩ := there
  refine Hierarchy.mostSpecific_eq_ok_iff.mpr ⟨fun type kept => ?_, Hierarchy.specific_specific⟩
  exact known before (List.mem_of_getElem? was) type (Hierarchy.mem_of_mem_specific kept)

theorem finish_again (finished : graph.finish hierarchy = (later, none)) :
    later.finish hierarchy = (later, none) := by
  have settled := settled_of_finish finished
  obtain ⟨_, rfl⟩ := of_finish_succeeds finished
  unfold finish
  rw [narrowTrees_again settled]
  exact congrArg (·, none) promoteSeeds_again

/-- Finishing that succeeds, without two types that are subtypes of each other, keeps exactly the most
specific types of every tree that has any; and in any hierarchy it changes nothing the second time. -/
theorem finish_most_specific (finished : graph.finish hierarchy = (later, none)) :
    (hierarchy.Acyclic → ∀ (id : TreeId) (tree : SearchTree), graph.forest.trees[id]? = some tree →
      (∃ type, type ∈ tree.fromTypes) → ∃ narrowed : SearchTree,
        later.forest.trees[id]? = some narrowed ∧ hierarchy.Selects tree.fromTypes narrowed.fromTypes) ∧
    later.finish hierarchy = (later, none) := by
  refine ⟨fun acyclic id tree before nonempty => ?_, finish_again finished⟩
  obtain ⟨narrowed, after, types⟩ := exists_narrowed finished before
  exact ⟨narrowed, after, types ▸ acyclic.selects nonempty⟩

end Graph

theorem finish_most_specific_credits :
    creditsGraph.finish filmTypes = (creditsFrom ["Documentary", "Person"], none) ∧ filmTypes.Acyclic ∧
      creditsGraph.forest.trees[0]? = some creditsTree ∧ "Film" ∈ creditsTree.fromTypes ∧
      (∃ narrowed : SearchTree, (creditsFrom ["Documentary", "Person"]).forest.trees[0]? = some narrowed ∧
        filmTypes.Selects creditsTree.fromTypes narrowed.fromTypes) ∧
      (creditsFrom ["Documentary", "Person"]).finish filmTypes =
        (creditsFrom ["Documentary", "Person"], none) := by
  have finished : creditsGraph.finish filmTypes = (creditsFrom ["Documentary", "Person"], none) := by
    decide +kernel
  have acyclic : filmTypes.Acyclic :=
    Hierarchy.acyclic_of_rank (fun type => if type = "Film" then 1 else 0) (by decide)
  have film : "Film" ∈ creditsTree.fromTypes := by decide
  obtain ⟨selects, again⟩ := Graph.finish_most_specific finished
  exact ⟨finished, acyclic, rfl, film, selects acyclic 0 creditsTree rfl ⟨"Film", film⟩, again⟩

end PlanGraph
