import Mathlib.Data.List.Forall2
import PlanGraph.Proofs.Graph.Reordering
import PlanGraph.Proofs.Graph.Trees

/-! Promotion of subjects to seeds, told from the plan. The IRI of an entry becomes a seed where a path of
the entry is nothing but a leaf, and the leaf that it shares with other paths starts no cycle any more. -/

set_option autoImplicit false
namespace PlanGraph

/-- The path reaches its pattern right below the tree: in one step, or in none if the pattern asserts a
type, which has a leaf of its own. -/
def PlannedPath.IsLeaf (path : PlannedPath) (pattern : TriplePattern) : Prop :=
  path.steps.length = if pattern.assertedType?.isSome then 0 else 1

def Plan.Promotes (plan : Plan) (fingerprint : Fingerprint) (seed : Iri) : Prop :=
  ∃ entry ∈ plan.entries, ∃ path type, entry.Enters fingerprint path type ∧
    path.IsLeaf entry.pattern ∧ entry.pattern.subject.iri? = some seed

def Plan.PromotedAt (plan : Plan) (graph : Graph) (number : StepId) : Prop :=
  ∃ id tree, graph.forest.trees[id]? = some tree ∧ (∃ seed, plan.Promotes tree.fingerprint seed) ∧
    graph.forest.follow (.tree id) [.leaf] = [.step number]

structure Graph.LeafAboutIri (graph : Graph) (step : Step) : Prop where
  top : ∃ id, step.parent = .tree id
  leaf : step.label = .leaf
  serves : ∃ id, id ∈ step.patterns ∧ ∃ pattern, graph.pattern? id = some pattern ∧
    ∃ iri, pattern.subject.iri? = some iri

structure Plan.Finishes (plan : Plan) (propagated graph : Graph) : Prop where
  others : { graph with forest := propagated.forest } = propagated
  trees : List.Forall₂ (fun before after : SearchTree =>
      { after with fromTypes := before.fromTypes, seeds := before.seeds } = before)
    propagated.forest.trees graph.forest.trees
  steps : List.Forall₂ (fun before after : Step =>
      { after with cycleStarts := before.cycleStarts } = before)
    propagated.forest.steps graph.forest.steps
  seeds : ∀ tree ∈ graph.forest.trees, ∀ seed, seed ∈ tree.seeds ↔
    (∃ entry ∈ plan.entries, ∃ path type, entry.Enters tree.fingerprint path type ∧ seed ∈ path.seeds) ∨
      plan.Promotes tree.fingerprint seed
  leaves : ∀ id tree, graph.forest.trees[id]? = some tree →
    (∃ seed, plan.Promotes tree.fingerprint seed) →
      ∃ number, graph.forest.follow (.tree id) [.leaf] = [.step number]
  starts : ∀ number before after, propagated.forest.steps[number]? = some before →
    graph.forest.steps[number]? = some after →
      (plan.PromotedAt graph number → after.cycleStarts = ∅) ∧
        (¬plan.PromotedAt graph number → after.cycleStarts = before.cycleStarts)
  unentered : ∀ id, (∀ step ∈ graph.forest.steps, ¬id ∈ step.cycleStarts) ↔
    ∀ step ∈ propagated.forest.steps, id ∈ step.cycleStarts → propagated.LeafAboutIri step

theorem PlannedPath.isLeaf_iff {path : PlannedPath} {pattern : TriplePattern} :
    path.IsLeaf pattern ↔ path.labels pattern = [.leaf] := by
  unfold IsLeaf labels
  rcases path.steps with _ | ⟨first, _ | ⟨second, rest⟩⟩ <;> cases pattern.assertedType? <;> simp

section
variable {plan : Plan} {hierarchy : Hierarchy} {roots : Roots} {initial : Graph}
  {fingerprint : Fingerprint} {seed : Iri}

theorem Plan.promotes_iff : plan.Promotes fingerprint seed ↔ ∃ pattern path,
    plan.Ends fingerprint [.leaf] pattern path ∧ pattern.subject.iri? = some seed := by
  simp only [Promotes, PlannedPath.isLeaf_iff]
  constructor
  · rintro ⟨entry, inside, path, type, enters, leaf, subject⟩
    obtain ⟨listed, starts⟩ := PlanEntry.mem_includedPaths.mp enters.included
    exact ⟨entry.pattern, path, ⟨⟨entry, inside, rfl, listed, by rw [starts]; rfl⟩, enters.seeds, leaf⟩,
      subject⟩
  · rintro ⟨_, path, ⟨⟨entry, inside, rfl, listed, starts⟩, seeds, leaf⟩, subject⟩
    obtain ⟨type, starts⟩ := Option.isSome_iff_exists.mp starts
    exact ⟨entry, inside, path, type, ⟨PlanEntry.mem_includedPaths.mpr ⟨listed, starts⟩, seeds⟩, leaf,
      subject⟩

theorem Plan.Initial.mem_subjectIris (represents : plan.Initial hierarchy initial) {number : StepId}
    {step : Step} (here : initial.forest.At (.step number) ((Place.root fingerprint).below .leaf))
    (found : initial.forest.steps[number]? = some step) :
    seed ∈ Graph.subjectIris initial.patterns step ↔ plan.Promotes fingerprint seed := by
  have explains := represents.explains (List.cons_ne_nil _ _) here found
  rw [Graph.mem_subjectIris, promotes_iff]
  constructor
  · rintro ⟨pattern, ⟨id, serves, known⟩, subject⟩
    obtain ⟨other, path, ends, same⟩ := (explains.patterns id).mp serves
    cases known.symm.trans same
    exact ⟨pattern, path, ends, subject⟩
  · rintro ⟨pattern, path, ends, subject⟩
    have known := represents.pattern?_eq_some.mpr ⟨ends.1.mem_patterns, rfl⟩
    exact ⟨pattern, ⟨_, (explains.patterns _).mpr ⟨pattern, path, ends, known⟩, known⟩, subject⟩

theorem Plan.Initial.exists_leaf (represents : plan.Initial hierarchy initial)
    (promotes : plan.Promotes fingerprint seed) : ∃ number step,
      initial.forest.At (.step number) ((Place.root fingerprint).below .leaf) ∧
        initial.forest.steps[number]? = some step := by
  obtain ⟨pattern, path, ends, _⟩ := promotes_iff.mp promotes
  have deep : ((Place.root fingerprint).below .leaf).word ≠ [] := List.cons_ne_nil _ _
  obtain ⟨number, step, here, found, _⟩ :=
    (represents.bears_present_iff deep).mpr ⟨pattern, path, .of_ends ends⟩
  exact ⟨number, step, here, found⟩

theorem Plan.promotedAt_iff {graph : Graph} (links : graph.forest.Linked) {number : StepId} :
    plan.PromotedAt graph number ↔ ∃ fingerprint, (∃ seed, plan.Promotes fingerprint seed) ∧
      graph.forest.At (.step number) ((Place.root fingerprint).below .leaf) := by
  constructor
  · rintro ⟨id, tree, planted, promotes, reached⟩
    have root : graph.forest.At (.tree id) (.root tree.fingerprint) :=
      .tree (Forest.fingerprint_at.mpr ⟨tree, planted, rfl⟩)
    have member : ChainNode.step number ∈ graph.forest.follow (.tree id) [.leaf] := by simp [reached]
    exact ⟨tree.fingerprint, promotes, (links.mem_follow root).mp member⟩
  · rintro ⟨fingerprint, promotes, here⟩
    obtain ⟨step, found⟩ : ∃ step, graph.forest.steps[number]? = some step := by
      obtain ⟨id, step, same, found⟩ := Forest.step_of_at (List.cons_ne_nil _ _) here
      cases same
      exact ⟨step, found⟩
    have leaf : graph.StepAt ((Place.root fingerprint).below .leaf) step := ⟨number, here, found⟩
    have parent := leaf.parent.1
    generalize step.parent = node at parent
    generalize same : Place.root fingerprint = place at parent
    cases parent with
    | @tree id _ planted =>
      cases same
      obtain ⟨tree, there, rfl⟩ := Forest.fingerprint_at.mp planted
      exact ⟨id, tree, there, promotes, links.follow_eq_singleton (.tree planted) here⟩
    | step => exact absurd same (Place.root_ne_below _ _ _)

/-- The steps that finishing clears are the leaves right below trees that gain a seed. -/
theorem Plan.Initial.isPromoted_iff (represents : plan.Initial hierarchy initial) {number : StepId}
    {step : Step} (found : initial.forest.steps[number]? = some step) :
    initial.isPromoted step ↔ plan.PromotedAt initial number := by
  rw [Plan.promotedAt_iff represents.links]
  constructor
  · intro promoted
    obtain ⟨above, parent, here⟩ := represents.links.exists_at found
    obtain ⟨top, pattern, ⟨id, serves, _⟩, _⟩ := (Graph.isPromoted_iff ⟨number, here, found⟩).mp promoted
    have leaf : step.label = .leaf := (represents.madeOf.leaf_of_serves found serves).1
    have root : above = .root above.fingerprint := by simp [Place.root, ← top]
    rw [leaf, root] at here
    obtain ⟨seed, gained⟩ := List.exists_mem_of_ne_nil _ promoted.2
    exact ⟨above.fingerprint, ⟨seed, (represents.mem_subjectIris here found).mp gained⟩, here⟩
  · rintro ⟨fingerprint, ⟨seed, promotes⟩, here⟩
    have gained := (represents.mem_subjectIris here found).mpr promotes
    obtain ⟨pattern, serves, subject⟩ := Graph.mem_subjectIris.mp gained
    exact (Graph.isPromoted_iff ⟨number, here, found⟩).mpr ⟨rfl, pattern, serves, seed, subject⟩

theorem Plan.Initial.mem_gainedSeeds (represents : plan.Initial hierarchy initial) {tree : SearchTree}
    (member : tree ∈ initial.forest.trees) :
    seed ∈ initial.gainedSeeds tree ↔ plan.Promotes tree.fingerprint seed := by
  rw [represents.sound.mem_gainedSeeds member]
  constructor
  · rintro ⟨label, _, ⟨step, ⟨number, here, found⟩, rfl⟩, pattern, ⟨id, serves, known⟩, subject⟩
    -- Patterns are served by leaves only, and a tree has one leaf right below it.
    have leaf : step.label = .leaf := (represents.madeOf.leaf_of_serves found serves).1
    have same : step.label = label := (Graph.StepAt.parent ⟨number, here, found⟩).2
    rw [← same, leaf] at here
    exact (represents.mem_subjectIris here found).mp
      (Graph.mem_subjectIris.mpr ⟨pattern, ⟨id, serves, known⟩, subject⟩)
  · intro promotes
    obtain ⟨number, step, here, found⟩ := represents.exists_leaf promotes
    have gained := (represents.mem_subjectIris here found).mpr promotes
    exact ⟨.leaf, _, ⟨step, ⟨number, here, found⟩, rfl⟩, Graph.mem_subjectIris.mp gained⟩

theorem Plan.Initial.leafAboutIri_iff (represents : plan.Initial hierarchy initial) {number : StepId}
    {step : Step} (found : initial.forest.steps[number]? = some step) :
    initial.LeafAboutIri step ↔ initial.isPromoted step := by
  obtain ⟨above, _, here⟩ := represents.links.exists_at found
  constructor
  · rintro ⟨⟨id, parent⟩, _, served, serves, pattern, known, iri, subject⟩
    refine ⟨by simp [Graph.isBelowTree, parent], List.ne_nil_of_mem (a := iri) ?_⟩
    exact Graph.mem_subjectIris.mpr ⟨pattern, ⟨served, serves, known⟩, subject⟩
  · intro promoted
    obtain ⟨_, pattern, ⟨served, serves, known⟩, subject⟩ :=
      (Graph.isPromoted_iff ⟨number, here, found⟩).mp promoted
    have top := promoted.1
    refine ⟨?_, (represents.madeOf.leaf_of_serves found serves).1, served, serves, pattern, known, subject⟩
    unfold Graph.isBelowTree at top
    split at top
    · next id parent => exact ⟨id, parent⟩
    · cases top

/-- The step starts the cycles that propagation gave it, unless it is a promoted leaf. -/
theorem Plan.Initial.starts_compiledStep (represents : plan.Initial hierarchy initial) (roots : Roots)
    {number : StepId} {step : Step} (found : initial.forest.steps[number]? = some step) :
    (plan.PromotedAt initial number → (initial.compiledStep hierarchy roots step).cycleStarts = ∅) ∧
      (¬plan.PromotedAt initial number → (initial.compiledStep hierarchy roots step).cycleStarts =
        (initial.spreadStep hierarchy roots step).cycleStarts) := by
  rw [← represents.isPromoted_iff found]
  unfold Graph.compiledStep Graph.finishStep
  split
  · next promoted => exact ⟨fun _ => rfl, fun other => absurd (Graph.isPromoted_spread.mp promoted) other⟩
  · next other => exact ⟨fun promoted => absurd (Graph.isPromoted_spread.mpr promoted) other, fun _ => rfl⟩

theorem Plan.Initial.unentered_iff (represents : plan.Initial hierarchy initial) (id : CycleId) :
    (∀ step ∈ (initial.compiled hierarchy roots).forest.steps, ¬id ∈ step.cycleStarts) ↔
      ∀ step ∈ (initial.spread hierarchy roots).forest.steps, id ∈ step.cycleStarts →
        (initial.spread hierarchy roots).LeafAboutIri step := by
  rw [Graph.compiled_steps, Graph.spread, List.forall_mem_map, List.forall_mem_map]
  refine forall₂_congr fun step member => ?_
  obtain ⟨number, found⟩ := List.getElem?_of_mem member
  -- Propagation changes neither the places nor the patterns of steps.
  have leaf : (initial.spread hierarchy roots).LeafAboutIri (initial.spreadStep hierarchy roots step) ↔
      plan.PromotedAt initial number := by
    rw [← represents.isPromoted_iff found, ← represents.leafAboutIri_iff found]
    constructor
    · rintro ⟨top, leaf, serves⟩
      exact ⟨top, leaf, serves⟩
    · rintro ⟨top, leaf, serves⟩
      exact ⟨top, leaf, serves⟩
  have starts := represents.starts_compiledStep roots found
  refine Iff.trans ?_ (imp_congr_right fun _ => leaf.symm)
  by_cases promoted : plan.PromotedAt initial number
  · simp [starts.1 promoted, promoted]
  · simp [starts.2 promoted, promoted]

theorem Plan.Initial.finishes (represents : plan.Initial hierarchy initial)
    (met : hierarchy.CanMeet (cycleRequests plan.entries)) :
    plan.Finishes (initial.spread hierarchy roots) (initial.compiled hierarchy roots) := by
  have same : Forest.SameLinks initial.forest (initial.compiled hierarchy roots).forest :=
    initial.sameLinks_compiled
  have links := same.linked represents.links
  -- Passes leave the places of nodes alone, so a leaf is promoted before them exactly if it is after them.
  have promoted (number : StepId) : plan.PromotedAt (initial.compiled hierarchy roots) number ↔
      plan.PromotedAt initial number := by
    rw [Plan.promotedAt_iff links, Plan.promotedAt_iff represents.links]
    simp only [same.at_iff]
  constructor
  · rfl
  · exact List.forall₂_map_right_iff.mpr (List.forall₂_same.mpr fun _ _ => rfl)
  · refine List.forall₂_map_right_iff.mpr (List.forall₂_same.mpr fun step _ => ?_)
    unfold Graph.finishStep
    split <;> rfl
  · intro tree member seed
    rw [Graph.compiled_trees] at member
    obtain ⟨before, inside, rfl⟩ := List.mem_map.mp member
    rw [Graph.mem_seeds_compiledTree, represents.mem_gainedSeeds inside,
      (represents.gathers met inside).seeds, or_comm]
    rfl
  · rintro id tree planted ⟨seed, promotes⟩
    obtain ⟨number, _, here, _⟩ := represents.exists_leaf promotes
    have root : (initial.compiled hierarchy roots).forest.At (.tree id) (.root tree.fingerprint) :=
      .tree (Forest.fingerprint_at.mpr ⟨tree, planted, rfl⟩)
    exact ⟨number, links.follow_eq_singleton root (same.at_iff.mpr here)⟩
  · intro number before after propagated there
    rw [promoted]
    rw [Graph.getElem?_spread] at propagated
    obtain ⟨step, found, rfl⟩ := Option.map_eq_some_iff.mp propagated
    rw [Graph.compiled_steps, List.getElem?_map, found] at there
    cases there
    exact represents.starts_compiledStep roots found
  · exact represents.unentered_iff

/-- The seeds and the starts of cycles in a compiled graph. -/
theorem compile_promotes {graph : Graph} (compiled : plan.compile hierarchy roots = .ok graph) :
    ∃ initial propagated, plan.initialGraph hierarchy = .ok initial ∧
      initial.propagate hierarchy roots = .ok propagated ∧ propagated.finish hierarchy = (graph, none) ∧
      plan.Finishes propagated graph := by
  obtain ⟨initial, built, known, rfl⟩ := Graph.compile_eq_ok_iff.mp compiled
  obtain ⟨met, represents⟩ := Plan.Initial.of_ok built
  have propagated : initial.propagate hierarchy roots = .ok (initial.spread hierarchy roots) :=
    (Graph.propagate_eq_ok_iff represents.cyclesDescribed).mpr ⟨known.asserted, known.cycles, rfl⟩
  have links : (initial.spread hierarchy roots).forest.Linked :=
    (Graph.sameLinks_spread initial).linked represents.links
  refine ⟨initial, _, built, propagated, Graph.finish_of_known links fun tree member => ?_,
    represents.finishes met⟩
  obtain ⟨before, inside, rfl⟩ := List.mem_map.mp member
  exact known.sources before inside

end

/-! A plan in which the only start of a cycle is a leaf that serves a pattern about an IRI. -/

def rosterEntry : PlanEntry where
  context := "query"
  pattern := ⟨.iri "club", .iri "member", .variable "x"⟩
  check := none
  cycles := [⟨"c", [⟨"knows", "Person"⟩]⟩]
  paths := [⟨[⟨"member", "Person"⟩], ["index"], none⟩]

def clubPlan : Plan where
  prefixes := ∅
  entries := [rosterEntry,
    { context := "query"
      pattern := ⟨.variable "x", .iri Rdf.Vocabulary.rdfType, .iri "Person"⟩
      check := none
      cycles := []
      paths := [⟨[], ["index"], none⟩] },
    { context := "query"
      pattern := ⟨.variable "x", .iri "name", .variable "n"⟩
      check := none
      cycles := []
      paths := [⟨[⟨"member", "Person"⟩, ⟨"name", "Name"⟩], ["pages"], none⟩] }]

/-- The club becomes a seed, and the cycle is left without a step to start from. -/
theorem compile_promotes_club : ∃ graph initial propagated,
    clubPlan.compile groupTypes ⟨.ofList ["x"], .ofList ["club"]⟩ = .ok graph ∧
      clubPlan.initialGraph groupTypes = .ok initial ∧
      initial.propagate groupTypes ⟨.ofList ["x"], .ofList ["club"]⟩ = .ok propagated ∧
      propagated.finish groupTypes = (graph, none) ∧ clubPlan.Finishes propagated graph ∧
      graph.cycles.contains "c" = true ∧ ∀ step ∈ graph.forest.steps, ¬"c" ∈ step.cycleStarts := by
  have succeeds : (clubPlan.compile groupTypes ⟨.ofList ["x"], .ofList ["club"]⟩).map (fun graph =>
      (graph.cycles.contains "c", graph.forest.steps.map Step.cycleStarts)) = .ok (true, [∅, ∅, ∅]) := by
    decide +kernel
  obtain ⟨graph, compiled, shown⟩ := map_eq_ok.mp succeeds
  obtain ⟨initial, propagated, built, spread, finished, finishes⟩ := compile_promotes compiled
  obtain ⟨described, starts⟩ := Prod.mk.inj shown
  refine ⟨graph, initial, propagated, compiled, built, spread, finished, finishes, described, ?_⟩
  intro step member
  have listed : step.cycleStarts ∈ graph.forest.steps.map Step.cycleStarts := List.mem_map_of_mem member
  rw [starts] at listed
  simp only [List.mem_cons, List.not_mem_nil, or_false, or_self] at listed
  rw [listed]
  exact OrderedSet.not_mem_empty "c"

end PlanGraph
