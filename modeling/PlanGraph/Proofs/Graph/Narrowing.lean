import Mathlib.Data.List.Forall2
import PlanGraph.Graph.Builder
import PlanGraph.Proofs.Graph.Finishing
import PlanGraph.Proofs.Hierarchy.Closure

/-! Narrowing starting types. A tree keeps its types without a proper subtype beside them, or all of
them if there is none. So a type is covered by what is kept, unless all that lies below it runs in
circles while other types of the tree do not. -/

set_option autoImplicit false
namespace PlanGraph

section
variable {hierarchy : Hierarchy} {types : OrderedSet Iri} {type : Iri}

def Hierarchy.IsSpecific (hierarchy : Hierarchy) (types : OrderedSet Iri) (type : Iri) : Prop :=
  type ∈ types ∧ ∀ other, other ∈ types → other ∈ hierarchy.below type → other = type

def Hierarchy.Covers (hierarchy : Hierarchy) (kept : OrderedSet Iri) (type : Iri) : Prop :=
  ∃ lower, lower ∈ kept ∧ lower ∈ hierarchy.below type

theorem Hierarchy.mem_filter_specific : type ∈ (types.filter fun type =>
      !types.elements.any fun other => other != type && (hierarchy.below type).contains other) ↔
    hierarchy.IsSpecific types type := by
  rw [OrderedSet.mem_filter, IsSpecific, Bool.not_eq_true', List.any_eq_false]
  refine and_congr_right fun _ => forall_congr' fun other => imp_congr_right fun _ => ?_
  rw [Bool.and_eq_true, OrderedSet.contains_iff, bne_iff_ne]
  constructor
  · intro proper below
    by_contra differs
    exact proper ⟨differs, below⟩
  · rintro only ⟨differs, below⟩
    exact differs (only below)

theorem Hierarchy.mem_specific : type ∈ hierarchy.specific types ↔
    hierarchy.IsSpecific types type ∨ type ∈ types ∧ ¬∃ other, hierarchy.IsSpecific types other := by
  unfold specific
  dsimp only
  split
  · next none =>
    have nothing : ¬∃ other, hierarchy.IsSpecific types other := by
      rintro ⟨other, specific⟩
      exact OrderedSet.isEmpty_iff.mp none other (mem_filter_specific.mpr specific)
    have this : ¬hierarchy.IsSpecific types type := fun specific => nothing ⟨type, specific⟩
    simp [nothing, this]
  · next some =>
    obtain ⟨other, member⟩ := OrderedSet.isEmpty_eq_false_iff.mp (Bool.eq_false_iff.mpr some)
    have exist : ∃ other, hierarchy.IsSpecific types other := ⟨other, mem_filter_specific.mp member⟩
    rw [mem_filter_specific]
    simp [exist]

theorem Hierarchy.mem_of_mem_specific (kept : type ∈ hierarchy.specific types) : type ∈ types := by
  rcases mem_specific.mp kept with specific | ⟨member, _⟩
  · exact specific.1
  · exact member

theorem Hierarchy.exists_mem_specific (nonempty : ∃ type, type ∈ types) :
    ∃ type, type ∈ hierarchy.specific types := by
  by_cases exist : ∃ other, hierarchy.IsSpecific types other
  · obtain ⟨other, specific⟩ := exist
    exact ⟨other, mem_specific.mpr (Or.inl specific)⟩
  · obtain ⟨type, member⟩ := nonempty
    exact ⟨type, mem_specific.mpr (Or.inr ⟨member, exist⟩)⟩

theorem Hierarchy.covers_specific_iff (member : type ∈ types) :
    hierarchy.Covers (hierarchy.specific types) type ↔
      (∃ lower, hierarchy.IsSpecific types lower ∧ lower ∈ hierarchy.below type) ∨
        ¬∃ other, hierarchy.IsSpecific types other := by
  constructor
  · rintro ⟨lower, kept, below⟩
    rcases mem_specific.mp kept with specific | ⟨_, none⟩
    · exact Or.inl ⟨lower, specific, below⟩
    · exact Or.inr none
  · rintro (⟨lower, specific, below⟩ | none)
    · exact ⟨lower, mem_specific.mpr (Or.inl specific), below⟩
    · exact ⟨type, mem_specific.mpr (Or.inr ⟨member, none⟩), self_mem_below hierarchy type⟩

def Hierarchy.WithoutCircles (hierarchy : Hierarchy) (types : OrderedSet Iri) : Prop :=
  ∀ first, first ∈ types → ∀ second, second ∈ types →
    second ∈ hierarchy.below first → first ∈ hierarchy.below second → first = second

/-- Going down from a type of a set without circles ends at a specific one. -/
theorem Hierarchy.WithoutCircles.exists_isSpecific (circleless : hierarchy.WithoutCircles types)
    (member : type ∈ types) :
    ∃ lower, hierarchy.IsSpecific types lower ∧ lower ∈ hierarchy.below type := by
  -- The induction is on the number of types below, which drops at every step down.
  generalize count : (types.elements.filter (hierarchy.below type).contains).length = number
  induction number using Nat.strongRecOn generalizing type with
  | ind number ih =>
    by_cases specific : hierarchy.IsSpecific types type
    · exact ⟨type, specific, self_mem_below hierarchy type⟩
    · have proper : ∃ other, other ∈ types ∧ other ∈ hierarchy.below type ∧ other ≠ type := by
        simpa [IsSpecific, member] using specific
      obtain ⟨other, inside, below, differs⟩ := proper
      have smaller : types.elements.filter (hierarchy.below other).contains =
          (types.elements.filter (hierarchy.below type).contains).filter
            (hierarchy.below other).contains := by
        rw [List.filter_filter]
        refine List.filter_congr fun lower _ => ?_
        rw [Bool.eq_iff_iff, Bool.and_eq_true, OrderedSet.contains_iff, OrderedSet.contains_iff]
        exact ⟨fun lowest => ⟨lowest, below_trans below lowest⟩, And.left⟩
      have dropped : ¬type ∈ hierarchy.below other := fun back =>
        differs (circleless other inside type member back below)
      have fewer : (types.elements.filter (hierarchy.below other).contains).length < number := by
        rw [smaller, ← count]
        refine List.length_filter_lt_length_iff_exists.mpr ⟨type, ?_, ?_⟩
        · exact List.mem_filter.mpr ⟨member, OrderedSet.contains_iff.mpr (self_mem_below hierarchy type)⟩
        · simpa only [OrderedSet.contains_iff] using dropped
      obtain ⟨lower, lowest, under⟩ := ih _ fewer inside rfl
      exact ⟨lower, lowest, below_trans below under⟩

theorem Hierarchy.mostSpecific_eq_ok_iff {found : OrderedSet Iri} :
    hierarchy.mostSpecific types = .ok found ↔
      (∀ type, type ∈ types → hierarchy.contains type = true) ∧ hierarchy.specific types = found := by
  by_cases known : ∀ type, type ∈ types → hierarchy.contains type = true
  · rw [mostSpecific_of_known known, Except.ok.injEq]
    exact (and_iff_right known).symm
  · refine ⟨fun result => ?_, fun result => absurd result.1 known⟩
    simp only [Classical.not_forall] at known
    obtain ⟨type, member, unknown⟩ := known
    obtain ⟨error, fails⟩ := mostSpecific_of_unknown member unknown
    rw [fails] at result
    cases result

end

namespace Graph
variable {graph later : Graph} {hierarchy : Hierarchy}

structure Narrows (hierarchy : Hierarchy) (tree narrowed : SearchTree) : Prop where
  fromTypes : narrowed.fromTypes = tree.fromTypes ∨ narrowed.fromTypes = hierarchy.specific tree.fromTypes
  others : { narrowed with fromTypes := tree.fromTypes } = tree

/-- A failure leaves the trees before the failing one narrowed and the others as they are. -/
theorem narrowTrees_narrows (trees : List SearchTree) :
    List.Forall₂ (Narrows hierarchy) trees (narrowTrees hierarchy trees).1 := by
  induction trees with
  | nil => exact .nil
  | cons tree rest ih =>
    unfold narrowTrees
    cases outcome : hierarchy.mostSpecific tree.fromTypes with
    | error error => exact List.forall₂_same.mpr fun _ _ => ⟨Or.inl rfl, rfl⟩
    | ok fromTypes =>
      obtain ⟨_, rfl⟩ := Hierarchy.mostSpecific_eq_ok_iff.mp outcome
      exact .cons ⟨Or.inr rfl, rfl⟩ ih

theorem known_of_narrowTrees {trees : List SearchTree}
    (succeeds : (narrowTrees hierarchy trees).2 = none) : SourcesKnown hierarchy trees := by
  by_contra unknown
  obtain ⟨narrowed, error, fails⟩ := narrowTrees_of_unknown unknown
  rw [fails] at succeeds
  cases succeeds

theorem of_finish_succeeds (finished : graph.finish hierarchy = (later, none)) :
    SourcesKnown hierarchy graph.forest.trees ∧ later = (graph.narrowed hierarchy).promoteSeeds := by
  rcases finish_cases graph hierarchy with ⟨error, _, stopped⟩ | ⟨succeeds, whole⟩
  · rw [stopped] at finished
    cases finished
  · rw [whole] at finished
    cases finished
    exact ⟨known_of_narrowTrees succeeds, rfl⟩

theorem exists_narrowed (finished : graph.finish hierarchy = (later, none)) {id : TreeId}
    {tree : SearchTree} (before : graph.forest.trees[id]? = some tree) :
    ∃ narrowed : SearchTree, later.forest.trees[id]? = some narrowed ∧
      narrowed.fromTypes = hierarchy.specific tree.fromTypes := by
  obtain ⟨known, rfl⟩ := of_finish_succeeds finished
  -- Promotions change seeds only.
  rw [promoteSeeds, promoteAll_eq, promoted, withTrees, withSteps, narrowed, narrowTrees_of_known known]
  simp only [List.getElem?_mapIdx, List.getElem?_map, before, Option.map_some]
  exact ⟨_, rfl, rfl⟩

/-- Where finishing succeeds, a starting type of a tree stays covered exactly if a specific one lies
below it or the tree has no specific one at all. So none is lost unless different types of the tree are
subtypes of each other. -/
theorem finish_covers_iff (finished : graph.finish hierarchy = (later, none)) {id : TreeId}
    {tree : SearchTree} (before : graph.forest.trees[id]? = some tree) :
    ∃ narrowed : SearchTree, later.forest.trees[id]? = some narrowed ∧
      (∀ type, type ∈ tree.fromTypes → (hierarchy.Covers narrowed.fromTypes type ↔
        (∃ lower, hierarchy.IsSpecific tree.fromTypes lower ∧ lower ∈ hierarchy.below type) ∨
          ¬∃ other, hierarchy.IsSpecific tree.fromTypes other)) ∧
      (hierarchy.WithoutCircles tree.fromTypes →
        ∀ type, type ∈ tree.fromTypes → hierarchy.Covers narrowed.fromTypes type) := by
  obtain ⟨narrowed, after, types⟩ := exists_narrowed finished before
  refine ⟨narrowed, after, ?_⟩
  rw [types]
  refine ⟨fun type member => Hierarchy.covers_specific_iff member, fun circleless type member => ?_⟩
  exact (Hierarchy.covers_specific_iff member).mpr (Or.inl (circleless.exists_isSpecific member))

end Graph

/-! A tree that starts from films, documentaries and persons. -/

def creditsEntry : PlanEntry where
  context := "query"
  pattern := ⟨.variable "x", .iri "name", .variable "n"⟩
  check := none
  cycles := []
  paths := [⟨[⟨"title", "Documentary"⟩], ["credits"], none⟩, ⟨[⟨"title", "Film"⟩], ["credits"], none⟩,
    ⟨[⟨"name", "Person"⟩], ["credits"], none⟩]

def creditsTree : SearchTree where
  fingerprint := fingerprint ["credits"]
  fromTypes := .ofList ["Documentary", "Film", "Person"]
  seeds := .ofList ["credits"]
  length := 3
  cycles := ∅
  patterns := ∅
  children := [0]

def creditsGraph : Graph where
  prefixes := ∅
  spaces := [⟨"query", 0⟩]
  patterns := [⟨creditsEntry.pattern, none⟩]
  forest := ⟨[creditsTree],
    [⟨.tree 0, .leaf, .ofList ["Documentary", "Film", "Person"], .ofList [0], none, ∅, []⟩]⟩
  cycles := ∅

def creditsFrom (types : List Iri) : Graph :=
  { creditsGraph with
    forest := { creditsGraph.forest with trees := [{ creditsTree with fromTypes := .ofList types }] } }

def filmTypes : Hierarchy := (Hierarchy.empty.addSubtype "Documentary" "Film").addType "Person"

theorem finish_covers_iff_credits :
    creditsGraph.finish filmTypes = (creditsFrom ["Documentary", "Person"], none) ∧
      creditsGraph.forest.trees[0]? = some creditsTree ∧ ∃ narrowed : SearchTree,
        (creditsFrom ["Documentary", "Person"]).forest.trees[0]? = some narrowed ∧
        (∀ type, type ∈ creditsTree.fromTypes → (filmTypes.Covers narrowed.fromTypes type ↔
          (∃ lower, filmTypes.IsSpecific creditsTree.fromTypes lower ∧ lower ∈ filmTypes.below type) ∨
            ¬∃ other, filmTypes.IsSpecific creditsTree.fromTypes other)) ∧
        (filmTypes.WithoutCircles creditsTree.fromTypes →
          ∀ type, type ∈ creditsTree.fromTypes → filmTypes.Covers narrowed.fromTypes type) := by
  have finished : creditsGraph.finish filmTypes = (creditsFrom ["Documentary", "Person"], none) := by
    decide +kernel
  exact ⟨finished, rfl, Graph.finish_covers_iff finished rfl⟩

def circularTypes : Hierarchy := filmTypes.addSubtype "Film" "Documentary"

/-- Beside a person, the circle of films and documentaries is dropped as a whole. -/
theorem finish_drops_circle :
    (⟨∅, [creditsEntry]⟩ : Plan).initialGraph circularTypes = .ok creditsGraph ∧
      creditsGraph.finish circularTypes = (creditsFrom ["Person"], none) ∧
      creditsGraph.forest.trees[0]? = some creditsTree ∧ "Film" ∈ creditsTree.fromTypes ∧
      ∃ narrowed : SearchTree, (creditsFrom ["Person"]).forest.trees[0]? = some narrowed ∧
        ¬circularTypes.Covers narrowed.fromTypes "Film" := by
  refine ⟨by decide +kernel, by decide +kernel, rfl, by decide, _, rfl, ?_⟩
  rintro ⟨lower, kept, below⟩
  have person : lower = "Person" := by simpa using OrderedSet.mem_ofList.mp kept
  subst person
  exact absurd below (by decide +kernel)

end PlanGraph
