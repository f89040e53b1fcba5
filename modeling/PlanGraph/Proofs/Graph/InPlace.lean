import PlanGraph.Proofs.Graph.InitialGraph
import PlanGraph.Proofs.Graph.Widening

/-! Propagation in place gives the spread graph. Cycles start where they are anchored, whatever the order
of anchors, and those without an anchor are removed with all that mentions them. -/

set_option autoImplicit false
namespace PlanGraph.Graph

/-! Anchoring. -/

def startsOf (widened : List (StepId × OrderedSet Iri)) (anchor : CycleId × OrderedSet Iri) :
    List StepId :=
  (widened.filter fun entry => entry.2.meets anchor.2).map (·.1)

def startedStep (widened : List (StepId × OrderedSet Iri)) (anchors : List (CycleId × OrderedSet Iri))
    (id : StepId) (step : Step) : Step :=
  { step with
    cycleStarts := step.cycleStarts.insertAll
      ((anchors.filter fun anchor => id ∈ startsOf widened anchor).map (·.1)) }

section
variable {graph : Graph} {widened : List (StepId × OrderedSet Iri)} {pruned : List CycleId}

theorem startAll_eq (cycle : CycleId) (starts : List StepId) :
    starts.foldl (startCycle · cycle ·) graph = graph.withSteps fun id step =>
      if id ∈ starts then { step with cycleStarts := step.cycleStarts.insert cycle } else step := by
  induction starts generalizing graph with
  | nil => exact (withSteps_unchanged fun _ _ _ => by simp).symm
  | cons first rest ih =>
    rw [List.foldl_cons, ih, startCycle, modifyStep_eq, withSteps_withSteps]
    refine withSteps_congr fun id step _ => ?_
    -- A step that is listed twice gets the cycle once.
    have twice : (step.cycleStarts.insert cycle).insert cycle = step.cycleStarts.insert cycle :=
      OrderedSet.ext fun id => by simp
    by_cases same : id = first <;> by_cases again : id ∈ rest <;> simp [same, again, twice]

theorem anchorCycle_eq (anchor : CycleId × OrderedSet Iri) :
    anchorCycle widened (graph, pruned) anchor = (graph.withSteps (startedStep widened [anchor]),
      pruned ++ ([anchor].filter fun anchor => (startsOf widened anchor).isEmpty).map (·.1)) := by
  have started : (startsOf widened anchor).foldl (startCycle · anchor.1 ·) graph =
      graph.withSteps (startedStep widened [anchor]) := by
    refine (startAll_eq anchor.1 _).trans (withSteps_congr fun id step _ => ?_)
    by_cases here : id ∈ startsOf widened anchor <;> simp [startedStep, here, OrderedSet.insertAll]
  change (if (startsOf widened anchor).isEmpty then _ else
    ((startsOf widened anchor).foldl (startCycle · anchor.1 ·) graph, pruned)) = _
  by_cases none : (startsOf widened anchor).isEmpty
  · rw [List.isEmpty_iff.mp none, List.foldl_nil] at started
    simp [none, ← started]
  · simp [none, started]

/-- Every cycle starts at its anchors, and those without any are listed for removal. -/
theorem anchorAll_eq (anchors : List (CycleId × OrderedSet Iri)) :
    anchors.foldl (anchorCycle widened) (graph, pruned) = (graph.withSteps (startedStep widened anchors),
      pruned ++ (anchors.filter fun anchor => (startsOf widened anchor).isEmpty).map (·.1)) := by
  induction anchors generalizing graph pruned with
  | nil =>
    have unchanged : graph.withSteps (startedStep widened []) = graph :=
      withSteps_unchanged fun _ _ _ => rfl
    simp [unchanged]
  | cons first rest ih =>
    rw [List.foldl_cons, anchorCycle_eq, ih, withSteps_withSteps]
    have changed : (graph.withSteps fun id step => startedStep widened rest id
          (startedStep widened [first] id step)) = graph.withSteps (startedStep widened (first :: rest)) :=
      withSteps_congr fun id step _ => by
        by_cases here : id ∈ startsOf widened first <;>
          simp [startedStep, here, OrderedSet.insertAll]
    rw [changed, List.append_assoc, ← List.map_append, ← List.filter_append]
    rfl

end

/-! Removing. -/

def without (graph : Graph) (gone : List CycleId) : Graph :=
  { graph with
    cycles := graph.cycles.filter fun entry => !gone.contains entry.1
    forest :=
      { trees := graph.forest.trees.map fun tree =>
          { tree with cycles := tree.cycles.filter (!gone.contains ·) }
        steps := graph.forest.steps.map fun step =>
          { step with cycleStarts := step.cycleStarts.filter (!gone.contains ·) } } }

section
variable {graph : Graph} {gone : List CycleId}

theorem without_nil : graph.without [] = graph := by
  simp only [without, List.contains_nil, Bool.not_false, OrderedSet.filter_true,
    OrderedMap.filter_true, List.map_id']

theorem without_without (more : List CycleId) :
    (graph.without gone).without more = graph.without (gone ++ more) := by
  have both (id : CycleId) : (gone ++ more).contains id = (gone.contains id || more.contains id) := by
    rw [Bool.eq_iff_iff]
    simp
  simp only [without, List.map_map, Function.comp_def, OrderedSet.filter_filter,
    OrderedMap.filter_filter, both, Bool.not_or]

theorem removeCycle_eq {id : CycleId} (there : graph.cycles.contains id = true) :
    graph.removeCycle id = graph.without [id] := by
  unfold removeCycle without
  rw [if_pos there]
  simp [OrderedSet.erase]

theorem removeAll_eq (distinct : gone.Nodup)
    (there : ∀ id ∈ gone, graph.cycles.contains id = true) :
    gone.foldl removeCycle graph = graph.without gone := by
  induction gone generalizing graph with
  | nil => exact without_nil.symm
  | cons first rest ih =>
    have parts := List.nodup_cons.mp distinct
    rw [List.foldl_cons, removeCycle_eq (there first (by simp)), ih parts.2, without_without]
    · rfl
    · intro id member
      -- A later cycle is still described when its turn comes, because it is another one.
      obtain ⟨cycle, found⟩ := OrderedMap.contains_iff.mp (there id (by simp [member]))
      refine OrderedMap.contains_iff.mpr ⟨cycle, OrderedMap.find?_filter.mpr ⟨found, ?_⟩⟩
      have differs : id ≠ first := fun same => parts.1 (same ▸ member)
      simp [differs]

end

/-! The whole pass. -/

section
variable {graph : Graph} {hierarchy : Hierarchy} {roots : Roots}

theorem anchorTypes_of_known (known : graph.CyclesKnown hierarchy) :
    graph.anchorTypes hierarchy = .ok (graph.anchors hierarchy) := by
  refine mapM_eq_ok_map ?_
  rintro ⟨id, cycle⟩ member
  dsimp only
  rw [Hierarchy.subtypesOfAll_of_known (known id cycle (OrderedMap.mem_entries.mp member))]
  rfl

theorem anchorTypes_of_unknown (unknown : ¬graph.CyclesKnown hierarchy) :
    ∃ error, graph.anchorTypes hierarchy = .error error := by
  simp only [CyclesKnown, Classical.not_forall] at unknown
  obtain ⟨id, cycle, found, type, member, missing⟩ := unknown
  obtain ⟨error, fails⟩ := Hierarchy.subtypesOfAll_of_unknown member missing
  refine mapM_eq_error (OrderedMap.mem_entries.mpr found) error ?_
  dsimp only
  rw [fails]
  rfl

variable (graph hierarchy roots) in
def widenedSteps : List (StepId × OrderedSet Iri) :=
  (graph.visited hierarchy roots graph.forest.steps.length).widened

variable (graph hierarchy roots) in
def prunedCycles : List CycleId :=
  ((graph.anchors hierarchy).filter fun anchor =>
    (startsOf (graph.widenedSteps hierarchy roots) anchor).isEmpty).map (·.1)

theorem mem_startsOf {anchor : CycleId × OrderedSet Iri} {number : StepId} :
    number ∈ startsOf (graph.widenedSteps hierarchy roots) anchor ↔
      ∃ step, graph.forest.steps[number]? = some step ∧
        ∃ types, graph.stepTypes? hierarchy roots step = some types ∧ types.meets anchor.2 = true := by
  simp only [startsOf, List.mem_map, List.mem_filter, Prod.exists, widenedSteps, mem_widened]
  constructor
  · rintro ⟨_, types, ⟨⟨step, found, chosen⟩, meets⟩, same⟩
    subst same
    exact ⟨step, found, types, chosen, meets⟩
  · rintro ⟨step, found, types, chosen, meets⟩
    exact ⟨number, types, ⟨⟨step, found, chosen⟩, meets⟩, rfl⟩

theorem startedStep_eq {number : StepId} {step : Step}
    (found : graph.forest.steps[number]? = some step) :
    startedStep (graph.widenedSteps hierarchy roots) (graph.anchors hierarchy) number
        (graph.widenedStep hierarchy roots step) =
      { graph.widenedStep hierarchy roots step with
        cycleStarts := step.cycleStarts.insertAll (graph.anchoredAt hierarchy roots step) } := by
  have listed : ((graph.anchors hierarchy).filter fun anchor =>
      number ∈ startsOf (graph.widenedSteps hierarchy roots) anchor).map (·.1) =
        graph.anchoredAt hierarchy roots step := by
    unfold anchoredAt
    simp only [mem_startsOf, found, Option.some.injEq, exists_eq_left']
    cases graph.stepTypes? hierarchy roots step <;> simp
  rw [startedStep, listed]
  rfl

theorem mem_prunedCycles {id : CycleId} : id ∈ graph.prunedCycles hierarchy roots ↔
    graph.cycles.contains id = true ∧ ¬id ∈ graph.keptCycles hierarchy roots := by
  have anchored {closure : OrderedSet Iri} (listed : (id, closure) ∈ graph.anchors hierarchy) :
      (startsOf (graph.widenedSteps hierarchy roots) (id, closure)).isEmpty = true ↔
        ¬id ∈ graph.keptCycles hierarchy roots := by
    rw [List.isEmpty_iff, List.eq_nil_iff_forall_not_mem, ← not_exists]
    refine not_congr ?_
    simp only [mem_startsOf, keptCycles, List.mem_flatMap, mem_anchoredAt_iff]
    constructor
    · rintro ⟨number, step, found, types, chosen, meets⟩
      exact ⟨step, List.mem_of_getElem? found, types, chosen, closure, listed, meets⟩
    · rintro ⟨step, member, types, chosen, other, also, meets⟩
      obtain ⟨number, found⟩ := List.getElem?_of_mem member
      -- Identifiers are keys, so an identifier has one closure.
      obtain ⟨cycle, there, rfl⟩ := mem_anchors.mp listed
      obtain ⟨again, alsoThere, rfl⟩ := mem_anchors.mp also
      cases there.symm.trans alsoThere
      exact ⟨number, step, found, types, chosen, meets⟩
  simp only [prunedCycles, List.mem_map, List.mem_filter, Prod.exists, exists_and_right,
    exists_eq_right, OrderedMap.contains_iff]
  constructor
  · rintro ⟨closure, listed, silent⟩
    obtain ⟨cycle, found, _⟩ := mem_anchors.mp listed
    exact ⟨⟨cycle, found⟩, (anchored listed).mp silent⟩
  · rintro ⟨⟨cycle, found⟩, lost⟩
    have listed : (id, hierarchy.belowAll cycle.types.elements) ∈ graph.anchors hierarchy :=
      mem_anchors.mpr ⟨cycle, found, rfl⟩
    exact ⟨_, listed, (anchored listed).mpr lost⟩

theorem nodup_prunedCycles : (graph.prunedCycles hierarchy roots).Nodup := by
  have keys : ((graph.anchors hierarchy).map (·.1)).Nodup := by
    unfold anchors
    rw [List.map_map]
    refine List.pairwise_map.mpr (graph.cycles.increasing.imp fun {first second} before same => ?_)
    have same : first.1 = second.1 := same
    exact Std.Irrefl.irrefl second.1 (same ▸ before)
  exact keys.sublist (List.filter_sublist.map _)

variable (graph hierarchy roots) in
def anchoredStep (step : Step) : Step :=
  { graph.widenedStep hierarchy roots step with
    cycleStarts := step.cycleStarts.insertAll (graph.anchoredAt hierarchy roots step) }

theorem anchored_eq : (graph.visited hierarchy roots graph.forest.steps.length).graph.withSteps
    (startedStep (graph.widenedSteps hierarchy roots) (graph.anchors hierarchy)) =
      graph.withSteps fun _ => graph.anchoredStep hierarchy roots := by
  unfold visited
  rw [withSteps_withSteps]
  refine withSteps_congr fun number step found => ?_
  rw [if_pos (List.getElem?_eq_some_iff.mp found).1]
  exact startedStep_eq found

theorem without_pruned (described : graph.CyclesDescribed) :
    (graph.withSteps fun _ => graph.anchoredStep hierarchy roots).without
      (graph.prunedCycles hierarchy roots) = graph.spread hierarchy roots := by
  -- For described cycles, and no others are mentioned, not to be removed is to be kept.
  have stays (id : CycleId) (there : graph.cycles.contains id = true) :
      (!(graph.prunedCycles hierarchy roots).contains id) =
        (graph.keptCycles hierarchy roots).contains id := by
    rw [Bool.eq_iff_iff, Bool.not_eq_true', ← Bool.not_eq_true, List.contains_iff_mem,
      List.contains_iff_mem, mem_prunedCycles]
    simp [there]
  have sets {set : OrderedSet CycleId} (inside : ∀ id, id ∈ set → graph.cycles.contains id = true) :
      set.filter (!(graph.prunedCycles hierarchy roots).contains ·) =
        set.filter (graph.keptCycles hierarchy roots).contains :=
    OrderedSet.ext fun id => by
      rw [OrderedSet.mem_filter, OrderedSet.mem_filter]
      exact and_congr_right fun mentioned => by rw [stays id (inside id mentioned)]
  unfold without spread
  simp only [Graph.mk.injEq, Forest.mk.injEq]
  refine ⟨rfl, rfl, rfl, ⟨?_, ?_⟩, ?_⟩
  · refine List.map_congr_left fun tree member => ?_
    rw [spreadTree, sets (described.trees tree member)]
  · refine List.ext_getElem? fun number => ?_
    rw [List.getElem?_map, getElem?_withSteps, Option.map_map, List.getElem?_map]
    cases found : graph.forest.steps[number]? with
    | none => rfl
    | some step =>
      have inside (id : CycleId) (starts : id ∈ (graph.anchoredStep hierarchy roots step).cycleStarts) :
          graph.cycles.contains id = true := by
        rcases OrderedSet.mem_insertAll.mp starts with anchored | before
        · obtain ⟨_, cycle, there, _⟩ := mem_anchoredAt.mp anchored
          exact OrderedMap.contains_iff.mpr ⟨cycle, there⟩
        · exact described.steps step (List.mem_of_getElem? found) id before
      rw [Option.map_some, Option.map_some, Function.comp_apply, sets inside]
      rfl
  · refine OrderedMap.ext fun id => Option.ext fun cycle => ?_
    rw [OrderedMap.find?_filter, OrderedMap.find?_filter]
    exact and_congr_right fun found => by rw [stays id (OrderedMap.contains_iff.mpr ⟨cycle, found⟩)]

/-- Propagation gives the spread graph, or fails for a type that is not known. -/
theorem propagate_eq_ok_iff (described : graph.CyclesDescribed) {result : Graph} :
    graph.propagate hierarchy roots = .ok result ↔
      graph.AssertedKnown hierarchy roots ∧ graph.CyclesKnown hierarchy ∧
        graph.spread hierarchy roots = result := by
  unfold Graph.propagate
  -- Widening comes first, so its failure hides that of the cycles.
  by_cases asserted : graph.AssertedKnown hierarchy roots
  · rw [widen_of_known asserted]
    by_cases cycles : graph.CyclesKnown hierarchy
    · have anchors : (graph.visited hierarchy roots graph.forest.steps.length).graph.anchorTypes
          hierarchy = .ok (graph.anchors hierarchy) := anchorTypes_of_known cycles
      have pruned : (graph.prunedCycles hierarchy roots).foldl removeCycle
          (graph.withSteps fun _ => graph.anchoredStep hierarchy roots) =
            graph.spread hierarchy roots := by
        refine (removeAll_eq nodup_prunedCycles fun id member => ?_).trans (without_pruned described)
        exact (mem_prunedCycles.mp member).1
      simp only [bind, Except.bind, anchors, anchorAll_eq, pure, Except.pure, List.nil_append,
        asserted, cycles, true_and, Except.ok.injEq]
      rw [← pruned, ← anchored_eq]
      rfl
    · have anchors : ∃ error, (graph.visited hierarchy roots graph.forest.steps.length).graph.anchorTypes
          hierarchy = .error error := anchorTypes_of_unknown cycles
      obtain ⟨error, fails⟩ := anchors
      simp [fails, cycles, bind, Except.bind]
  · obtain ⟨error, fails⟩ := widen_of_unknown asserted
    simp [fails, asserted, bind, Except.bind]

end
end PlanGraph.Graph
