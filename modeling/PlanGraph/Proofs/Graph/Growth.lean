import PlanGraph.Proofs.Graph.Links

/-! How forests grow. Planting a tree and growing a step keep the links of a forest and the places of
all its nodes, and give the new node the place that it is asked for. -/

set_option autoImplicit false
namespace PlanGraph.Forest

structure Within (first second : Forest) : Prop where
  fingerprints : first.fingerprints <+: second.fingerprints
  keys : first.keys <+: second.keys

namespace Within
variable {first second third : Forest}

theorem refl (forest : Forest) : Within forest forest := ⟨List.prefix_rfl, List.prefix_rfl⟩

theorem trans (earlier : Within first second) (later : Within second third) :
    Within first third :=
  ⟨earlier.fingerprints.trans later.fingerprints, earlier.keys.trans later.keys⟩

theorem at_place (larger : Within first second) {node : ChainNode} {place : Place}
    (stands : first.At node place) : second.At node place := by
  obtain ⟨newTrees, trees⟩ := larger.fingerprints
  obtain ⟨newSteps, steps⟩ := larger.keys
  unfold At
  rw [← trees, ← steps]
  exact Stands.extend stands newTrees newSteps

end Within

theorem SameLinks.within {first second : Forest} (same : SameLinks first second) :
    Within first second :=
  ⟨same.fingerprints ▸ List.prefix_rfl, same.keys ▸ List.prefix_rfl⟩

def withStep (forest : Forest) (step : Step) : Forest := { forest with steps := forest.steps ++ [step] }

theorem keys_withStep (forest : Forest) (step : Step) :
    (forest.withStep step).keys = forest.keys ++ [step.key] := by
  simp [keys, withStep]

theorem keys_addChild (forest : Forest) (node : ChainNode) (child : StepId) :
    (forest.addChild node child).keys = forest.keys := by
  cases node with
  | tree number => rfl
  | step number => exact map_modify_of_eq fun _ => rfl

theorem fingerprints_addChild (forest : Forest) (node : ChainNode) (child : StepId) :
    (forest.addChild node child).fingerprints = forest.fingerprints := by
  cases node with
  | tree number => exact map_modify_of_eq fun _ => rfl
  | step number => rfl

theorem childrenOf_withStep (forest : Forest) (node parent : ChainNode) (label : StepLabel) :
    (forest.withStep (.grown parent label)).childrenOf node = forest.childrenOf node := by
  cases node with
  | tree number => rfl
  | step number =>
    simp only [childrenOf, withStep]
    rcases Nat.lt_trichotomy number forest.steps.length with old | new | beyond
    · rw [List.getElem?_append_left old]
    · simp [new, Step.grown]
    · have outside : forest.steps.length ≤ number := Nat.le_of_lt beyond
      have outsideToo : (forest.steps ++ [Step.grown parent label]).length ≤ number := by
        rw [List.length_append, List.length_singleton]
        exact beyond
      rw [List.getElem?_eq_none outside, List.getElem?_eq_none outsideToo]

def Has (forest : Forest) : ChainNode → Prop
  | .tree number => number < forest.trees.length
  | .step number => number < forest.steps.length

theorem has_of_at {forest : Forest} {node : ChainNode} {place : Place} (stands : forest.At node place) :
    forest.Has node := by
  cases node with
  | tree number => simpa [fingerprints, Has] using Stands.tree_bound stands
  | step number => simpa [keys, Has] using Stands.step_bound stands

theorem childrenOf_addChild {forest : Forest} {parent : ChainNode} (known : forest.Has parent)
    (node : ChainNode) (child : StepId) :
    (forest.addChild parent child).childrenOf node =
      if parent = node then forest.childrenOf node ++ [child] else forest.childrenOf node := by
  -- Only the list of the parent grows, so a node of the other kind is never concerned.
  cases parent with
  | tree number =>
    cases node with
    | step other => simp [addChild, childrenOf, modifyTree]
    | tree other =>
      by_cases same : number = other
      · subst same
        have found := List.getElem?_eq_getElem known
        simp [addChild, childrenOf, modifyTree, found]
      · simp [addChild, childrenOf, modifyTree, same]
  | step number =>
    cases node with
    | tree other => simp [addChild, childrenOf, modifyStep]
    | step other =>
      by_cases same : number = other
      · subst same
        have found := List.getElem?_eq_getElem known
        simp [addChild, childrenOf, modifyStep, found]
      · simp [addChild, childrenOf, modifyStep, same]

def withChild (forest : Forest) (node : ChainNode) (label : StepLabel) : Forest :=
  (forest.withStep (.grown node label)).addChild node forest.steps.length

section
variable {forest : Forest} {node : ChainNode} {place : Place} {label : StepLabel}

theorem grow_of_some {id : StepId} (found : forest.child? node label = some id) :
    forest.grow node label = (forest, id) := by
  simp [grow, found]

theorem grow_of_none (absent : forest.child? node label = none) :
    forest.grow node label = (forest.withChild node label, forest.steps.length) := by
  simp [grow, absent, withChild, withStep]

theorem keys_withChild : (forest.withChild node label).keys = forest.keys ++ [(node, label)] := by
  rw [withChild, keys_addChild, keys_withStep]
  rfl

theorem fingerprints_withChild : (forest.withChild node label).fingerprints = forest.fingerprints := by
  rw [withChild, fingerprints_addChild]
  rfl

theorem length_keys (forest : Forest) : forest.keys.length = forest.steps.length := by simp [keys]

theorem length_fingerprints (forest : Forest) : forest.fingerprints.length = forest.trees.length := by
  simp [fingerprints]

theorem Has.precedes (known : forest.Has node) :
    node.Precedes forest.fingerprints.length forest.keys.length := by
  rw [length_keys, length_fingerprints]
  cases node with
  | tree number => exact known
  | step number => exact known

theorem Linked.ordered_concat (links : Linked forest) (known : forest.Has node) :
    Ordered forest.fingerprints.length (forest.keys ++ [(node, label)]) := by
  intro id key found
  rcases getElem?_concat_eq_some.mp found with old | ⟨rfl, rfl⟩
  · exact links.ordered id key old
  · exact known.precedes

theorem Linked.withChild (links : Linked forest) (known : forest.Has node)
    (absent : forest.child? node label = none) : Linked (forest.withChild node label) where
  fingerprints_nodup := by
    rw [fingerprints_withChild]
    exact links.fingerprints_nodup
  keys_nodup := by
    rw [keys_withChild, List.nodup_append]
    refine ⟨links.keys_nodup, List.pairwise_singleton .., fun key member other new => ?_⟩
    -- A step with this parent and label would have been found.
    rintro rfl
    obtain ⟨id, found⟩ := List.getElem?_of_mem member
    rw [List.mem_singleton.mp new] at found
    rw [links.child?_eq_some.mpr found] at absent
    cases absent
  ordered := by
    rw [keys_withChild, fingerprints_withChild]
    exact links.ordered_concat known
  children := fun other => by
    have inside : (forest.withStep (.grown node label)).Has node := by
      cases node with
      | tree number => exact known
      | step number =>
        have bound : number < forest.steps.length := known
        exact Nat.lt_of_lt_of_le bound (by simp [withStep])
    rw [keys_withChild, numbersBelow_concat, Forest.withChild, childrenOf_addChild inside,
      childrenOf_withStep, links.children, length_keys]

theorem within_withChild : Within forest (forest.withChild node label) where
  fingerprints := fingerprints_withChild ▸ List.prefix_rfl
  keys := keys_withChild ▸ List.prefix_append _ _

/-- What growing a step gives: the links are kept, and so are the places of the other nodes. -/
structure Grown (forest : Forest) (place : Place) (grown : Forest × StepId) : Prop where
  links : Linked grown.1
  larger : Within forest grown.1
  here : grown.1.At (.step grown.2) place

theorem Linked.grow (links : Linked forest) (here : forest.At node place) :
    Grown forest (place.below label) (forest.grow node label) := by
  cases found : forest.child? node label with
  | some id =>
    rw [grow_of_some found]
    exact ⟨links, .refl forest, .step (links.child?_eq_some.mp found) here⟩
  | none =>
    rw [grow_of_none found]
    have larger : Within forest (forest.withChild node label) := within_withChild
    refine ⟨links.withChild (has_of_at here) found, larger, .step ?_ (larger.at_place here)⟩
    rw [keys_withChild, ← length_keys]
    exact List.getElem?_concat_length

end

section
variable {forest : Forest} {fingerprint : Fingerprint}

theorem Linked.treeWith?_eq_some (links : Linked forest) {id : TreeId} :
    forest.treeWith? fingerprint = some id ↔ forest.fingerprints[id]? = some fingerprint :=
  findIdx?_key_eq_some links.fingerprints_nodup

def withTree (forest : Forest) (fingerprint : Fingerprint) : Forest :=
  { forest with trees := forest.trees ++ [.planted fingerprint] }

theorem plant_of_some {id : TreeId} (found : forest.treeWith? fingerprint = some id) :
    forest.plant fingerprint = (forest, id) := by
  simp [plant, found]

theorem plant_of_none (absent : forest.treeWith? fingerprint = none) :
    forest.plant fingerprint = (forest.withTree fingerprint, forest.trees.length) := by
  simp [plant, absent, withTree]

theorem fingerprints_withTree :
    (forest.withTree fingerprint).fingerprints = forest.fingerprints ++ [fingerprint] := by
  simp [fingerprints, withTree, SearchTree.planted]

theorem childrenOf_withTree (node : ChainNode) :
    (forest.withTree fingerprint).childrenOf node = forest.childrenOf node := by
  cases node with
  | step number => rfl
  | tree number =>
    simp only [childrenOf, withTree]
    rcases Nat.lt_trichotomy number forest.trees.length with old | new | beyond
    · rw [List.getElem?_append_left old]
    · simp [new, SearchTree.planted]
    · have outside : forest.trees.length ≤ number := Nat.le_of_lt beyond
      have outsideToo : (forest.trees ++ [SearchTree.planted fingerprint]).length ≤ number := by
        rw [List.length_append, List.length_singleton]
        exact beyond
      rw [List.getElem?_eq_none outside, List.getElem?_eq_none outsideToo]

theorem Linked.withTree (links : Linked forest) (absent : forest.treeWith? fingerprint = none) :
    Linked (forest.withTree fingerprint) where
  fingerprints_nodup := by
    rw [fingerprints_withTree, List.nodup_append]
    refine ⟨links.fingerprints_nodup, List.pairwise_singleton .., fun old member other new => ?_⟩
    rintro rfl
    obtain ⟨id, found⟩ := List.getElem?_of_mem member
    rw [List.mem_singleton.mp new] at found
    rw [links.treeWith?_eq_some.mpr found] at absent
    cases absent
  keys_nodup := links.keys_nodup
  ordered := fun id key found => by
    have before := links.ordered id key found
    rw [fingerprints_withTree, List.length_append]
    obtain ⟨parent, label⟩ := key
    cases parent with
    | tree number => exact Nat.lt_of_lt_of_le before (Nat.le_add_right _ _)
    | step number => exact before
  children := fun node => (childrenOf_withTree node).trans (links.children node)

theorem within_withTree : Within forest (forest.withTree fingerprint) where
  fingerprints := fingerprints_withTree ▸ List.prefix_append _ _
  keys := List.prefix_rfl

structure Planted (forest : Forest) (fingerprint : Fingerprint) (planted : Forest × TreeId) : Prop where
  links : Linked planted.1
  larger : Within forest planted.1
  here : planted.1.fingerprints[planted.2]? = some fingerprint

theorem Linked.plant (links : Linked forest) :
    Planted forest fingerprint (forest.plant fingerprint) := by
  cases found : forest.treeWith? fingerprint with
  | some id =>
    rw [plant_of_some found]
    exact ⟨links, .refl forest, links.treeWith?_eq_some.mp found⟩
  | none =>
    rw [plant_of_none found]
    refine ⟨links.withTree found, within_withTree, ?_⟩
    rw [fingerprints_withTree, ← length_fingerprints]
    exact List.getElem?_concat_length

end
end PlanGraph.Forest
