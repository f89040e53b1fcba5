import PlanGraph.Proofs.Graph.Building

/-! Well-formed graphs. Whatever entries a builder is given, and whichever of them fail, its graph is a
forest: every step is listed once, by its parent, and reached from one tree along one word. Leaves end
these words and serve patterns, numbers name what is there, and nothing is there twice. -/

set_option autoImplicit false
namespace PlanGraph

/-- The links of a forest as a reader of its lists of children meets them. -/
structure Forest.WellFormed (forest : Forest) : Prop where
  parents : ∀ (id : StepId) (step : Step), forest.steps[id]? = some step →
    step.parent.Precedes forest.trees.length id
  listed : ∀ (id : StepId) (step : Step), forest.steps[id]? = some step →
    ∀ node, (forest.childrenOf node).count id = if node = step.parent then 1 else 0
  children : ∀ node, ∀ id ∈ forest.childrenOf node, id < forest.steps.length
  reached : ∀ id < forest.steps.length, ∃ tree word, .step id ∈ forest.follow (.tree tree) word ∧
    word.length ≤ id + 1 ∧ ∀ other otherWord, .step id ∈ forest.follow (.tree other) otherWord →
      other = tree ∧ otherWord = word
  labels : ∀ node, ∀ first ∈ forest.childrenOf node, ∀ second ∈ forest.childrenOf node,
    ∀ step other : Step, forest.steps[first]? = some step → forest.steps[second]? = some other →
      step.label = other.label → first = second
  fingerprints : (forest.trees.map SearchTree.fingerprint).Nodup

structure Step.WellFormed (step : Step) : Prop where
  typed : ∃ type, type ∈ step.types
  leaf : step.label = .leaf → step.children = [] ∧ ∃ id, id ∈ step.patterns
  property : ∀ name, step.label = .property name →
    step.children ≠ [] ∧ step.patterns = ∅ ∧ step.check = none

structure Graph.WellFormed (graph : Graph) : Prop where
  forest : graph.forest.WellFormed
  steps : ∀ step ∈ graph.forest.steps, step.WellFormed
  spacePatterns : ∀ space ∈ graph.spaces, space.pattern < graph.patterns.length
  treePatterns : ∀ tree ∈ graph.forest.trees, ∀ id, id ∈ tree.patterns → id < graph.patterns.length
  stepPatterns : ∀ step ∈ graph.forest.steps, ∀ id, id ∈ step.patterns → id < graph.patterns.length
  distinct : (graph.patterns.map PatternNode.pattern).Nodup
  cycles : graph.CyclesDescribed
  near : ∀ step ∈ graph.forest.steps,
    (∀ leaf, graph.forest.LeafBeside step leaf → graph.forest.nearPatterns step = leaf.patterns) ∧
      ((¬∃ leaf, graph.forest.LeafBeside step leaf) → graph.forest.nearPatterns step = ∅)

/-! The links. -/

theorem Stands.length_le {fingerprints : List Fingerprint} {keys : List StepKey}
    (ordered : Ordered fingerprints.length keys) {id : StepId} {place : Place}
    (stands : Stands fingerprints keys (.step id) place) : place.word.length ≤ id + 1 := by
  generalize same : ChainNode.step id = node at stands
  induction stands generalizing id with
  | tree => cases same
  | @step number parent label place found above ih =>
    cases same
    have before := ordered _ _ found
    rw [Place.below, List.length_append, List.length_singleton]
    cases parent with
    | tree root =>
      cases above with
      | tree => simp [Place.root]
    | step upper =>
      have upperBound : place.word.length ≤ upper + 1 := ih rfl
      exact Nat.succ_le_succ (Nat.le_trans upperBound before)

namespace Forest
variable {forest : Forest} {node : ChainNode} {id : StepId} {step : Step}

theorem Linked.count_childrenOf (links : forest.Linked) (found : forest.steps[id]? = some step) :
    (forest.childrenOf node).count id = if node = step.parent then 1 else 0 := by
  rw [links.nodup_childrenOf.count]
  simp only [links.mem_childrenOf_iff found]

theorem tree_of_step_mem_follow {tree : TreeId} {word : List StepLabel}
    (reached : .step id ∈ forest.follow (.tree tree) word) :
    ∃ fingerprint, forest.At (.tree tree) (.root fingerprint) := by
  cases planted : forest.trees[tree]? with
  | some root => exact ⟨root.fingerprint, .tree (fingerprint_at.mpr ⟨root, planted, rfl⟩)⟩
  | none =>
    -- Nothing but the number itself is reached from a tree that is not there.
    cases word with
    | nil => simp [follow] at reached
    | cons label rest => simp [follow, childrenOf, planted] at reached

theorem Linked.exists_follow (links : forest.Linked) (bound : id < forest.steps.length) :
    ∃ tree word, .step id ∈ forest.follow (.tree tree) word ∧ word.length ≤ id + 1 ∧
      ∀ other otherWord, .step id ∈ forest.follow (.tree other) otherWord →
        other = tree ∧ otherWord = word := by
  rw [← length_keys] at bound
  obtain ⟨⟨fingerprint, word⟩, here⟩ := Stands.exists_place links.ordered bound
  have here : forest.At (.step id) ((Place.root fingerprint).along word) := here
  obtain ⟨upper, root⟩ := Stands.above here
  obtain ⟨tree, rfl⟩ : ∃ tree, upper = .tree tree := by
    generalize same : Place.root fingerprint = goal at root
    cases root with
    | tree => exact ⟨_, rfl⟩
    | step => exact absurd same (Place.root_ne_below _ _ _)
  have root : forest.At (.tree tree) (.root fingerprint) := root
  refine ⟨tree, word, (links.mem_follow root).mpr here, here.length_le links.ordered, ?_⟩
  intro other otherWord reached
  obtain ⟨otherFingerprint, otherRoot⟩ := tree_of_step_mem_follow reached
  have again : forest.At (.step id) ((Place.root otherFingerprint).along otherWord) :=
    (links.mem_follow otherRoot).mp reached
  have same := Stands.place_unique again here
  simp only [Place.along, Place.root, List.nil_append, Place.mk.injEq] at same
  obtain ⟨rfl, rfl⟩ := same
  cases links.node_unique otherRoot root
  exact ⟨rfl, rfl⟩

theorem Linked.wellFormed (links : forest.Linked) : forest.WellFormed where
  parents := fun id step found => by
    have key : forest.keys[id]? = some step.key := key_at.mpr ⟨step, found, rfl⟩
    rw [← length_fingerprints]
    exact links.ordered id _ key
  listed := fun _ _ found _ => links.count_childrenOf found
  children := fun _ id below => by
    obtain ⟨label, key⟩ := links.mem_childrenOf.mp below
    rw [← length_keys]
    exact (List.getElem?_eq_some_iff.mp key).1
  reached := fun _ bound => links.exists_follow bound
  labels := fun node first below second also step other found there same => by
    have key : forest.keys[first]? = some (node, step.label) := links.key_of_child below (by simp [found])
    have otherKey : forest.keys[second]? = some (node, step.label) :=
      links.key_of_child also (by simp [there, same])
    exact links.step_unique key otherKey
  fingerprints := links.fingerprints_nodup

/-! Steps and the patterns near them. -/

variable {number : TriplePattern → PatternId} {inclusions : List Inclusion}

theorem MadeOf.step_wellFormed (made : forest.MadeOf number inclusions)
    (found : forest.steps[id]? = some step) : step.WellFormed where
  typed := made.exists_type found
  leaf := fun closes => ⟨made.no_child_of_leaf found closes, made.serves_of_leaf found closes⟩
  property := fun name follows => by
    refine ⟨made.exists_child_of_property found follows, OrderedSet.ext fun served => ?_, ?_⟩
    · refine iff_of_false (fun serves => ?_) (OrderedSet.not_mem_none served)
      have closes := (made.leaf_of_serves found serves).1
      rw [follows] at closes
      cases closes
    · cases checked : step.check with
      | none => rfl
      | some value =>
        have closes := made.leaf_of_checked found checked
        rw [follows] at closes
        cases closes

theorem MadeOf.nearPatterns_eq (made : forest.MadeOf number inclusions) {leaf : Step}
    (beside : forest.LeafBeside step leaf) : forest.nearPatterns step = leaf.patterns := by
  refine OrderedSet.ext fun served => made.mem_nearPatterns.trans ⟨?_, fun serves => ⟨leaf, beside, serves⟩⟩
  rintro ⟨other, also, serves⟩
  exact made.links.leaf_unique also beside ▸ serves

theorem MadeOf.nearPatterns_eq_empty (made : forest.MadeOf number inclusions)
    (none : ¬∃ leaf, forest.LeafBeside step leaf) : forest.nearPatterns step = ∅ := by
  refine OrderedSet.ext fun served => iff_of_false (fun near => none ?_) (OrderedSet.not_mem_none served)
  obtain ⟨leaf, beside, _⟩ := made.mem_nearPatterns.mp near
  exact ⟨leaf, beside⟩

end Forest

/-! The graph. -/

namespace Builder.Gathers
variable {builder : Builder} {given : List PlanEntry} {taken : List Inclusion}

theorem madeOf (gathers : builder.Gathers given taken) :
    builder.nursery.forest.MadeOf (numberOf given) taken := by
  rw [gathers.nursery]
  exact Forest.madeOf_ofInclusions (numberOf given) taken

theorem number_lt (gathers : builder.Gathers given taken) {pattern : TriplePattern}
    (requested : pattern ∈ given.map PlanEntry.pattern) :
    numberOf given pattern < builder.registry.nodes.length := by
  rw [gathers.registry]
  exact numberOf_lt requested

theorem cyclesDescribed (gathers : builder.Gathers given taken) : builder.graph.CyclesDescribed :=
  .of_madeOf gathers.madeOf fun inclusion listed => (gathers.backed inclusion listed).described

theorem wellFormed (gathers : builder.Gathers given taken) : builder.graph.WellFormed where
  forest := gathers.madeOf.links.wellFormed
  steps := fun step member => by
    obtain ⟨id, found⟩ := List.getElem?_of_mem member
    exact gathers.madeOf.step_wellFormed found
  spacePatterns := fun space member => by
    have member : space ∈ builder.spaces := member
    rw [gathers.spaces] at member
    obtain ⟨entry, inside, rfl⟩ := List.mem_map.mp member
    exact gathers.number_lt (List.mem_map_of_mem inside)
  treePatterns := fun tree member id serves => by
    obtain ⟨inclusion, listed, _, _, named⟩ :=
      (gathers.madeOf.tree_carries_iff member (.pattern id)).mp ⟨id, serves, rfl⟩
    exact named ▸ gathers.number_lt (gathers.backed _ listed).requested
  stepPatterns := fun step member id serves => by
    obtain ⟨number, found⟩ := List.getElem?_of_mem member
    obtain ⟨_, inclusion, listed, named⟩ := gathers.madeOf.leaf_of_serves found serves
    exact named ▸ gathers.number_lt (gathers.backed _ listed).requested
  distinct := by
    rw [Builder.graph, gathers.registry]
    exact patterns_registered_nodup (patternRequests given)
  cycles := gathers.cyclesDescribed
  near := fun _ _ => ⟨fun _ beside => gathers.madeOf.nearPatterns_eq beside,
    fun none => gathers.madeOf.nearPatterns_eq_empty none⟩

end Builder.Gathers

/-- Entries that fail leave the graph of a builder well-formed, like those that do not. -/
theorem wellFormed_addAll (prefixes : Prefixes) (hierarchy : Hierarchy) (entries : List PlanEntry) :
    ((Builder.start prefixes).addAll hierarchy entries).graph.WellFormed := by
  obtain ⟨taken, gathers⟩ := (Builder.gathers_start prefixes).addAll hierarchy entries
  exact gathers.wellFormed

end PlanGraph
