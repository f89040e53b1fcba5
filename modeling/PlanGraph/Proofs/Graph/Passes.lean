import Mathlib.Data.List.Forall2
import Mathlib.Logic.Relation
import PlanGraph.Proofs.Graph.InPlace
import PlanGraph.Proofs.Graph.Narrowing
import PlanGraph.Proofs.Graph.Propagation

/-! Passes over an initial graph. Propagation and finishing may be called in any order and any number of
times, each call with its own types and roots. The structure of the graph stays what it was, expected
types and seeds only grow, and starting types and cycles only shrink. -/

set_option autoImplicit false
namespace PlanGraph

structure SearchTree.EvolvesTo (tree later : SearchTree) : Prop where
  fingerprint : later.fingerprint = tree.fingerprint
  length : later.length = tree.length
  patterns : later.patterns = tree.patterns
  children : later.children = tree.children
  seeds : ∀ seed, seed ∈ tree.seeds → seed ∈ later.seeds
  fromTypes : ∀ type, type ∈ later.fromTypes → type ∈ tree.fromTypes
  sourced : (∃ type, type ∈ tree.fromTypes) → ∃ type, type ∈ later.fromTypes
  cycles : ∀ id, id ∈ later.cycles → id ∈ tree.cycles

structure Step.EvolvesTo (step later : Step) : Prop where
  parent : later.parent = step.parent
  label : later.label = step.label
  patterns : later.patterns = step.patterns
  check : later.check = step.check
  children : later.children = step.children
  types : ∀ type, type ∈ step.types → type ∈ later.types

structure Graph.EvolvesTo (graph later : Graph) : Prop where
  prefixes : later.prefixes = graph.prefixes
  spaces : later.spaces = graph.spaces
  patterns : later.patterns = graph.patterns
  trees : List.Forall₂ SearchTree.EvolvesTo graph.forest.trees later.forest.trees
  steps : List.Forall₂ Step.EvolvesTo graph.forest.steps later.forest.steps
  cycles : ∀ id cycle, later.cycles.find? id = some cycle → graph.cycles.find? id = some cycle

def Graph.Anchored (graph : Graph) : Prop :=
  ∀ id cycle, graph.cycles.find? id = some cycle →
    ∃ step ∈ graph.forest.steps, id ∈ step.cycleStarts

/-- One call of a pass. Finishing counts also where it fails and stops half way. -/
inductive Graph.Pass (graph later : Graph) : Prop
  | propagate (hierarchy : Hierarchy) (roots : Roots)
      (propagated : graph.propagate hierarchy roots = .ok later)
  | finish (hierarchy : Hierarchy) (error : Option UnknownType)
      (finished : graph.finish hierarchy = (later, error))

/-! Evolution. -/

theorem SearchTree.EvolvesTo.refl (tree : SearchTree) : tree.EvolvesTo tree :=
  ⟨rfl, rfl, rfl, rfl, fun _ => id, fun _ => id, id, fun _ => id⟩

theorem Step.EvolvesTo.refl (step : Step) : step.EvolvesTo step :=
  ⟨rfl, rfl, rfl, rfl, rfl, fun _ => id⟩

theorem SearchTree.EvolvesTo.trans {tree later last : SearchTree} (first : tree.EvolvesTo later)
    (second : later.EvolvesTo last) : tree.EvolvesTo last where
  fingerprint := second.fingerprint.trans first.fingerprint
  length := second.length.trans first.length
  patterns := second.patterns.trans first.patterns
  children := second.children.trans first.children
  seeds := fun seed known => second.seeds seed (first.seeds seed known)
  fromTypes := fun type kept => first.fromTypes type (second.fromTypes type kept)
  sourced := fun nonempty => second.sourced (first.sourced nonempty)
  cycles := fun id kept => first.cycles id (second.cycles id kept)

theorem Step.EvolvesTo.trans {step later last : Step} (first : step.EvolvesTo later)
    (second : later.EvolvesTo last) : step.EvolvesTo last where
  parent := second.parent.trans first.parent
  label := second.label.trans first.label
  patterns := second.patterns.trans first.patterns
  check := second.check.trans first.check
  children := second.children.trans first.children
  types := fun type expected => second.types type (first.types type expected)

theorem forall₂_trans {α : Type} {relation : α → α → Prop} {first second third : List α}
    (trans : ∀ {a b c : α}, relation a b → relation b c → relation a c)
    (early : List.Forall₂ relation first second) (late : List.Forall₂ relation second third) :
    List.Forall₂ relation first third := by
  induction early generalizing third with
  | nil =>
    cases late
    exact .nil
  | cons pair _ ih =>
    cases late with
    | cons next rest => exact .cons (trans pair next) (ih rest)

theorem forall₂_modify {α : Type} {relation : α → α → Prop} (refl : ∀ value, relation value value)
    {change : α → α} (changed : ∀ value, relation value (change value)) (list : List α) (place : Nat) :
    List.Forall₂ relation list (list.modify place change) := by
  induction list generalizing place with
  | nil => cases place <;> exact .nil
  | cons first rest ih =>
    cases place with
    | zero => exact .cons (changed first) (List.forall₂_same.mpr fun value _ => refl value)
    | succ place => exact .cons (refl first) (ih place)

theorem exists_of_forall₂ {α : Type} {relation : α → α → Prop} {first second : List α} {value : α}
    (related : List.Forall₂ relation first second) (member : value ∈ second) :
    ∃ before ∈ first, relation before value := by
  induction related with
  | nil => cases member
  | cons pair _ ih =>
    rcases List.mem_cons.mp member with rfl | member
    · exact ⟨_, List.mem_cons_self, pair⟩
    · obtain ⟨before, inside, relates⟩ := ih member
      exact ⟨before, List.mem_cons_of_mem _ inside, relates⟩

theorem map_eq_of_forall₂ {α β : Type} {relation : α → α → Prop} {view : α → β} {first second : List α}
    (same : ∀ value later, relation value later → view later = view value)
    (related : List.Forall₂ relation first second) : first.map view = second.map view := by
  induction related with
  | nil => rfl
  | cons relates _ ih => rw [List.map_cons, List.map_cons, ih, same _ _ relates]

namespace Graph
variable {graph later last : Graph} {hierarchy : Hierarchy} {roots : Roots}

theorem EvolvesTo.refl (graph : Graph) : graph.EvolvesTo graph where
  prefixes := rfl
  spaces := rfl
  patterns := rfl
  trees := List.forall₂_same.mpr fun tree _ => .refl tree
  steps := List.forall₂_same.mpr fun step _ => .refl step
  cycles := fun _ _ => id

theorem EvolvesTo.trans (first : graph.EvolvesTo later) (second : later.EvolvesTo last) :
    graph.EvolvesTo last where
  prefixes := second.prefixes.trans first.prefixes
  spaces := second.spaces.trans first.spaces
  patterns := second.patterns.trans first.patterns
  trees := forall₂_trans .trans first.trees second.trees
  steps := forall₂_trans .trans first.steps second.steps
  cycles := fun id cycle found => first.cycles id cycle (second.cycles id cycle found)

theorem EvolvesTo.sameLinks (evolves : graph.EvolvesTo later) :
    graph.forest.SameLinks later.forest where
  fingerprints := map_eq_of_forall₂ (fun _ _ evolved => evolved.fingerprint) evolves.trees
  keys := map_eq_of_forall₂ (fun _ _ evolved => Prod.ext evolved.parent evolved.label) evolves.steps
  children := fun node => by
    cases node with
    | tree number =>
      have kept := map_eq_of_forall₂ (fun _ _ evolved => SearchTree.EvolvesTo.children evolved) evolves.trees
      rw [Forest.childrenOf, Forest.childrenOf, ← List.getElem?_map, kept, List.getElem?_map]
    | step number =>
      have kept := map_eq_of_forall₂ (fun _ _ evolved => Step.EvolvesTo.children evolved) evolves.steps
      rw [Forest.childrenOf, Forest.childrenOf, ← List.getElem?_map, kept, List.getElem?_map]

/-! Propagation. -/

theorem evolvesTo_spread (graph : Graph) (hierarchy : Hierarchy) (roots : Roots) :
    graph.EvolvesTo (graph.spread hierarchy roots) where
  prefixes := rfl
  spaces := rfl
  patterns := rfl
  trees := by
    refine List.forall₂_map_right_iff.mpr (List.forall₂_same.mpr fun tree _ => ?_)
    exact ⟨rfl, rfl, rfl, rfl, fun _ => id, fun _ => id, id,
      fun _ kept => (OrderedSet.mem_filter.mp kept).1⟩
  steps := by
    refine List.forall₂_map_right_iff.mpr (List.forall₂_same.mpr fun step _ => ?_)
    exact ⟨rfl, rfl, rfl, rfl, rfl, fun _ expected => mem_types_spreadStep.mpr (Or.inl expected)⟩
  cycles := fun _ _ found => (find?_spread.mp found).1

theorem cyclesDescribed_spread (graph : Graph) (hierarchy : Hierarchy) (roots : Roots) :
    (graph.spread hierarchy roots).CyclesDescribed where
  trees := fun tree member id mentioned => by
    obtain ⟨before, _, rfl⟩ := List.mem_map.mp member
    exact contains_spread.trans (OrderedSet.mem_filter.mp mentioned).2
  steps := fun step member id starts => by
    obtain ⟨before, _, rfl⟩ := List.mem_map.mp member
    exact contains_spread.trans (OrderedSet.mem_filter.mp starts).2

theorem anchored_spread (graph : Graph) (hierarchy : Hierarchy) (roots : Roots) :
    (graph.spread hierarchy roots).Anchored := by
  intro id cycle found
  obtain ⟨_, step, member, anchors⟩ := find?_spread.mp found
  exact ⟨_, List.mem_map_of_mem member, (mem_starts_spreadStep member).mpr (Or.inl anchors)⟩

/-! Finishing. -/

theorem Narrows.evolvesTo {tree narrowed : SearchTree} (narrows : Narrows hierarchy tree narrowed) :
    tree.EvolvesTo narrowed := by
  have field {β : Type} (view : SearchTree → β) : _ = _ := congrArg view narrows.others
  have smaller (type : Iri) (kept : type ∈ narrowed.fromTypes) : type ∈ tree.fromTypes := by
    rcases narrows.fromTypes with same | specific
    · exact same ▸ kept
    · exact Hierarchy.mem_of_mem_specific (specific ▸ kept)
  have sourced (nonempty : ∃ type, type ∈ tree.fromTypes) : ∃ type, type ∈ narrowed.fromTypes := by
    rcases narrows.fromTypes with same | specific
    · exact same ▸ nonempty
    · exact specific ▸ Hierarchy.exists_mem_specific nonempty
  exact ⟨field SearchTree.fingerprint, field SearchTree.length, field SearchTree.patterns,
    field SearchTree.children, fun seed known => (field SearchTree.seeds).symm ▸ known, smaller, sourced,
    fun id kept => (field SearchTree.cycles) ▸ kept⟩

theorem evolvesTo_narrowed (graph : Graph) (hierarchy : Hierarchy) :
    graph.EvolvesTo (graph.narrowed hierarchy) :=
  { EvolvesTo.refl graph with
    trees := (narrowTrees_narrows graph.forest.trees).imp fun _ _ => Narrows.evolvesTo }

theorem evolvesTo_promote (graph : Graph) (promotion : Promotion) :
    graph.EvolvesTo (graph.promote promotion) where
  prefixes := rfl
  spaces := rfl
  patterns := rfl
  trees := by
    refine forall₂_modify .refl (fun tree => ?_) graph.forest.trees promotion.tree
    exact ⟨rfl, rfl, rfl, rfl, fun _ known => OrderedSet.mem_insert.mpr (Or.inr known), fun _ => id, id,
      fun _ => id⟩
  steps := by
    refine forall₂_modify .refl (fun step => ?_) graph.forest.steps promotion.step
    exact ⟨rfl, rfl, rfl, rfl, rfl, fun _ => id⟩
  cycles := fun _ _ => id

theorem CyclesDescribed.evolve (described : graph.CyclesDescribed) (evolves : graph.EvolvesTo later)
    (cycles : later.cycles = graph.cycles)
    (starts : List.Forall₂ (fun step later : Step => ∀ id, id ∈ later.cycleStarts → id ∈ step.cycleStarts)
      graph.forest.steps later.forest.steps) : later.CyclesDescribed where
  trees := fun tree member id mentioned => by
    obtain ⟨before, inside, evolved⟩ := exists_of_forall₂ evolves.trees member
    exact cycles ▸ described.trees before inside id (evolved.cycles id mentioned)
  steps := fun step member id startsThere => by
    obtain ⟨before, inside, fewer⟩ := exists_of_forall₂ starts member
    exact cycles ▸ described.steps before inside id (fewer id startsThere)

theorem cyclesDescribed_promote (described : graph.CyclesDescribed) (promotion : Promotion) :
    (graph.promote promotion).CyclesDescribed := by
  refine described.evolve (evolvesTo_promote graph promotion) rfl ?_
  exact forall₂_modify (fun _ _ => id) (fun _ id starts => absurd starts (OrderedSet.not_mem_none id))
    graph.forest.steps promotion.step

theorem promoteAll_keeps (described : graph.CyclesDescribed) (list : List Promotion) :
    graph.EvolvesTo (list.foldl promote graph) ∧ (list.foldl promote graph).CyclesDescribed := by
  induction list generalizing graph with
  | nil => exact ⟨.refl graph, described⟩
  | cons first rest ih =>
    obtain ⟨evolves, still⟩ := ih (cyclesDescribed_promote described first)
    exact ⟨(evolvesTo_promote graph first).trans evolves, still⟩

theorem finish_keeps (described : graph.CyclesDescribed) (hierarchy : Hierarchy) :
    graph.EvolvesTo (graph.finish hierarchy).1 ∧ (graph.finish hierarchy).1.CyclesDescribed := by
  have narrow := evolvesTo_narrowed graph hierarchy
  have narrowDescribed : (graph.narrowed hierarchy).CyclesDescribed :=
    described.evolve narrow rfl (List.forall₂_same.mpr fun _ _ _ => id)
  rcases finish_cases graph hierarchy with ⟨error, _, stopped⟩ | ⟨_, finished⟩
  · rw [stopped]
    exact ⟨narrow, narrowDescribed⟩
  · rw [finished]
    obtain ⟨promoted, still⟩ := promoteAll_keeps narrowDescribed (graph.narrowed hierarchy).promotions
    exact ⟨narrow.trans promoted, still⟩

/-! Passes in any order. -/

theorem Pass.keeps (pass : graph.Pass later) (described : graph.CyclesDescribed) :
    graph.EvolvesTo later ∧ later.CyclesDescribed := by
  cases pass with
  | propagate hierarchy roots propagated =>
    obtain ⟨_, _, rfl⟩ := (propagate_eq_ok_iff described).mp propagated
    exact ⟨evolvesTo_spread graph hierarchy roots, cyclesDescribed_spread graph hierarchy roots⟩
  | finish hierarchy error finished =>
    have kept := finish_keeps described hierarchy
    rw [finished] at kept
    exact kept

theorem passes_keep (passes : Relation.ReflTransGen Pass graph later)
    (described : graph.CyclesDescribed) : graph.EvolvesTo later ∧ later.CyclesDescribed := by
  induction passes with
  | refl => exact ⟨.refl graph, described⟩
  | tail _ pass ih =>
    obtain ⟨evolves, still⟩ := ih
    obtain ⟨next, last⟩ := pass.keeps still
    exact ⟨evolves.trans next, last⟩

end Graph

theorem Plan.Initial.exists_source {plan : Plan} {hierarchy : Hierarchy} {graph : Graph}
    (initial : plan.Initial hierarchy graph) {tree : SearchTree} (member : tree ∈ graph.forest.trees) :
    ∃ type, type ∈ tree.fromTypes := by
  have carries := initial.madeOf.tree_carries_iff member
  obtain ⟨inclusion, listed, seeds, _⟩ := (carries .present).mp trivial
  exact ⟨inclusion.fromType, (carries (.source inclusion.fromType)).mpr ⟨inclusion, listed, seeds, rfl⟩⟩

/-- What a pass leaves of the initial graph and of the graph it was called on. -/
structure PassEffect (initial before after : Graph) : Prop where
  described : after.CyclesDescribed
  fromInitial : initial.EvolvesTo after
  fromBefore : before.EvolvesTo after
  sourced : ∀ tree ∈ after.forest.trees, ∃ type, type ∈ tree.fromTypes
  anchored : (∃ hierarchy roots, before.propagate hierarchy roots = .ok after) → after.Anchored

/-- After every pass of a run that begins at the initial graph of a plan. -/
theorem pass_effect {plan : Plan} {hierarchy : Hierarchy} {initial before after : Graph}
    (built : plan.initialGraph hierarchy = .ok initial)
    (earlier : Relation.ReflTransGen Graph.Pass initial before) (pass : before.Pass after) :
    PassEffect initial before after := by
  have represents := (Plan.Initial.of_ok built).2
  obtain ⟨evolved, described⟩ := Graph.passes_keep earlier represents.cyclesDescribed
  obtain ⟨evolves, still⟩ := pass.keeps described
  refine ⟨still, evolved.trans evolves, evolves, fun tree member => ?_, ?_⟩
  · obtain ⟨first, inside, grown⟩ := exists_of_forall₂ (evolved.trans evolves).trees member
    exact grown.sourced (represents.exists_source inside)
  · rintro ⟨hierarchy, roots, propagated⟩
    obtain ⟨_, _, rfl⟩ := (Graph.propagate_eq_ok_iff described).mp propagated
    exact Graph.anchored_spread before hierarchy roots

/-- Finishing fails without types and leaves the graph as it is; propagation succeeds after that. -/
theorem pass_effect_group : groupPlan.initialGraph groupTypes = .ok groupGraph ∧
    Relation.ReflTransGen Graph.Pass groupGraph groupGraph ∧ groupGraph.Pass groupSpread ∧
      PassEffect groupGraph groupGraph groupSpread := by
  have fails : groupGraph.finish .empty = (groupGraph, some ⟨"Person"⟩) := by decide +kernel
  have earlier : Relation.ReflTransGen Graph.Pass groupGraph groupGraph :=
    .single (.finish .empty (some ⟨"Person"⟩) fails)
  have pass : groupGraph.Pass groupSpread :=
    .propagate groupTypes ⟨.ofList ["x"], ∅⟩ (by decide +kernel)
  exact ⟨initialGraph_groupPlan, earlier, pass, pass_effect initialGraph_groupPlan earlier pass⟩

end PlanGraph
