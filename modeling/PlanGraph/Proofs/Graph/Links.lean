import PlanGraph.Proofs.Graph.Place
import PlanGraph.Proofs.Graph.Scanning

/-! The links of a forest: parents, labels and lists of children fit together. Planting trees and
growing steps keep the links, and changing the other contents of trees and steps does not touch
them. -/

set_option autoImplicit false
namespace PlanGraph.Forest

def fingerprints (forest : Forest) : List Fingerprint := forest.trees.map SearchTree.fingerprint

def keys (forest : Forest) : List StepKey := forest.steps.map Step.key

def At (forest : Forest) (node : ChainNode) (place : Place) : Prop :=
  Stands forest.fingerprints forest.keys node place

def numbersBelow (keys : List StepKey) (node : ChainNode) : List StepId :=
  (List.range keys.length).filter fun id => keys[id]?.any (·.1 == node)

/-- No fingerprint and no key occurs twice, parents come first, and the children of a node are the
steps that name it as their parent, in the order of their numbers. -/
structure Linked (forest : Forest) : Prop where
  fingerprints_nodup : forest.fingerprints.Nodup
  keys_nodup : forest.keys.Nodup
  ordered : Ordered forest.fingerprints.length forest.keys
  children : ∀ node, forest.childrenOf node = numbersBelow forest.keys node

structure SameLinks (first second : Forest) : Prop where
  fingerprints : first.fingerprints = second.fingerprints
  keys : first.keys = second.keys
  children : ∀ node, first.childrenOf node = second.childrenOf node

theorem mem_numbersBelow {keys : List StepKey} {node : ChainNode} {id : StepId} :
    id ∈ numbersBelow keys node ↔ ∃ label, keys[id]? = some (node, label) := by
  unfold numbersBelow
  rw [List.mem_filter, List.mem_range]
  constructor
  · rintro ⟨_, matching⟩
    cases found : keys[id]? with
    | none => simp [found] at matching
    | some key =>
      have same : key.1 = node := by simpa [found] using matching
      exact ⟨key.2, by rw [← same]⟩
  · rintro ⟨label, found⟩
    exact ⟨(List.getElem?_eq_some_iff.mp found).1, by simp [found]⟩

theorem numbersBelow_concat (keys : List StepKey) (parent node : ChainNode) (label : StepLabel) :
    numbersBelow (keys ++ [(parent, label)]) node =
      if parent = node then numbersBelow keys node ++ [keys.length] else numbersBelow keys node := by
  unfold numbersBelow
  rw [List.length_append, List.length_singleton, List.range_succ, List.filter_append]
  have old : (List.range keys.length).filter
        (fun id => (keys ++ [(parent, label)])[id]?.any (·.1 == node)) =
      (List.range keys.length).filter fun id => keys[id]?.any (·.1 == node) := by
    refine List.filter_congr fun id inside => ?_
    rw [List.getElem?_append_left (List.mem_range.mp inside)]
  rw [old]
  by_cases same : parent = node <;> simp [same]

theorem key_at {forest : Forest} {id : StepId} {key : StepKey} :
    forest.keys[id]? = some key ↔ ∃ step, forest.steps[id]? = some step ∧ step.key = key := by
  simp [keys, List.getElem?_map]

theorem fingerprint_at {forest : Forest} {id : TreeId} {fingerprint : Fingerprint} :
    forest.fingerprints[id]? = some fingerprint ↔
      ∃ tree, forest.trees[id]? = some tree ∧ tree.fingerprint = fingerprint := by
  simp [fingerprints, List.getElem?_map]

theorem linked_empty : Linked empty where
  fingerprints_nodup := .nil
  keys_nodup := .nil
  ordered := fun id key found => by simp [keys, empty] at found
  children := fun node => by cases node <;> rfl

namespace SameLinks
variable {first second third : Forest}

theorem trans (early : SameLinks first second) (late : SameLinks second third) :
    SameLinks first third where
  fingerprints := early.fingerprints.trans late.fingerprints
  keys := early.keys.trans late.keys
  children := fun node => (early.children node).trans (late.children node)

theorem linked (same : SameLinks first second) (links : Linked first) : Linked second where
  fingerprints_nodup := same.fingerprints ▸ links.fingerprints_nodup
  keys_nodup := same.keys ▸ links.keys_nodup
  ordered := same.fingerprints ▸ same.keys ▸ links.ordered
  children := fun node => by rw [← same.children, ← same.keys, links.children]

theorem at_iff (same : SameLinks first second) {node : ChainNode} {place : Place} :
    second.At node place ↔ first.At node place := by
  unfold At
  rw [same.fingerprints, same.keys]

end SameLinks

theorem sameLinks_modifyTree (forest : Forest) (id : TreeId) {change : SearchTree → SearchTree}
    (fingerprint : ∀ tree, (change tree).fingerprint = tree.fingerprint)
    (children : ∀ tree, (change tree).children = tree.children) :
    SameLinks forest (forest.modifyTree id change) where
  fingerprints := (map_modify_of_eq fingerprint).symm
  keys := rfl
  children := fun node => by
    cases node with
    | step number => rfl
    | tree number =>
      have kept : (forest.trees.modify id change).map SearchTree.children =
          forest.trees.map SearchTree.children := map_modify_of_eq children
      have there := congrArg (·[number]?) kept
      simp only [List.getElem?_map] at there
      simp only [childrenOf, modifyTree, there]

theorem sameLinks_modifyStep (forest : Forest) (id : StepId) {change : Step → Step}
    (key : ∀ step, (change step).key = step.key)
    (children : ∀ step, (change step).children = step.children) :
    SameLinks forest (forest.modifyStep id change) where
  fingerprints := rfl
  keys := (map_modify_of_eq key).symm
  children := fun node => by
    cases node with
    | tree number => rfl
    | step number =>
      have kept : (forest.steps.modify id change).map Step.children =
          forest.steps.map Step.children := map_modify_of_eq children
      have there := congrArg (·[number]?) kept
      simp only [List.getElem?_map] at there
      simp only [childrenOf, modifyStep, there]

theorem sameLinks_map (forest : Forest) {tree : SearchTree → SearchTree} {step : Step → Step}
    (fingerprint : ∀ before, (tree before).fingerprint = before.fingerprint)
    (treeChildren : ∀ before, (tree before).children = before.children)
    (key : ∀ before, (step before).key = before.key)
    (stepChildren : ∀ before, (step before).children = before.children) :
    SameLinks forest ⟨forest.trees.map tree, forest.steps.map step⟩ where
  fingerprints := by
    rw [fingerprints, fingerprints, List.map_map]
    exact List.map_congr_left fun before _ => (fingerprint before).symm
  keys := by
    rw [keys, keys, List.map_map]
    exact List.map_congr_left fun before _ => (key before).symm
  children := fun node => by
    cases node with
    | tree id =>
      simp only [childrenOf, List.getElem?_map, Option.map_map, Function.comp_def, treeChildren]
    | step id =>
      simp only [childrenOf, List.getElem?_map, Option.map_map, Function.comp_def, stepChildren]

/-! Looking for children and following labels. -/

section
variable {forest : Forest} {node : ChainNode} {label : StepLabel} {place : Place}

theorem Linked.mem_childrenOf (links : Linked forest) {id : StepId} :
    id ∈ forest.childrenOf node ↔ ∃ label, forest.keys[id]? = some (node, label) := by
  rw [links.children, mem_numbersBelow]

theorem Linked.mem_childrenOf_iff (links : Linked forest) {id : StepId} {step : Step}
    (found : forest.steps[id]? = some step) : id ∈ forest.childrenOf node ↔ node = step.parent := by
  have key : forest.keys[id]? = some step.key := key_at.mpr ⟨step, found, rfl⟩
  rw [links.mem_childrenOf, key]
  simp [Step.key, eq_comm]

theorem hasLabel_iff {id : StepId} :
    forest.steps[id]?.any (·.label == label) = true ↔ ∃ parent, forest.keys[id]? = some (parent, label) := by
  cases found : forest.steps[id]? with
  | none => simp [keys, found]
  | some step => simp [keys, found, Step.key]

theorem Linked.key_of_child (links : Linked forest) {id : StepId} (below : id ∈ forest.childrenOf node)
    (matching : forest.steps[id]?.any (·.label == label) = true) :
    forest.keys[id]? = some (node, label) := by
  obtain ⟨other, found⟩ := links.mem_childrenOf.mp below
  obtain ⟨parent, labelled⟩ := hasLabel_iff.mp matching
  rw [found, Option.some.injEq, Prod.mk.injEq] at labelled
  rw [found, labelled.2]

theorem Linked.step_unique (links : Linked forest) {first second : StepId} {key : StepKey}
    (found : forest.keys[first]? = some key) (again : forest.keys[second]? = some key) :
    first = second :=
  (List.getElem?_inj (List.getElem?_eq_some_iff.mp found).1 links.keys_nodup).mp
    (found.trans again.symm)

theorem Linked.child?_eq_some (links : Linked forest) {id : StepId} :
    forest.child? node label = some id ↔ forest.keys[id]? = some (node, label) := by
  have keyed : ∀ {id : StepId}, forest.child? node label = some id →
      forest.keys[id]? = some (node, label) := by
    intro id found
    have matching := List.find?_some found
    exact links.key_of_child (List.mem_of_find?_eq_some found) matching
  refine ⟨keyed, fun key => ?_⟩
  cases found : forest.child? node label with
  | none =>
    have absent := List.find?_eq_none.mp found id (links.mem_childrenOf.mpr ⟨label, key⟩)
    exact absurd (hasLabel_iff.mpr ⟨node, key⟩) absent
  | some other =>
    rw [links.step_unique key (keyed found)]

theorem Linked.node_unique (links : Linked forest) {other : ChainNode} (first : forest.At node place)
    (second : forest.At other place) : node = other :=
  Stands.node_unique links.fingerprints_nodup links.keys_nodup first second

/-- The nodes that a word of labels leads to, from child to child. -/
def follow (forest : Forest) : ChainNode → List StepLabel → List ChainNode
  | node, [] => [node]
  | node, label :: rest =>
    ((forest.childrenOf node).filter fun id => forest.steps[id]?.any (·.label == label)).flatMap
      fun id => forest.follow (.step id) rest

theorem Linked.nodup_childrenOf (links : Linked forest) : (forest.childrenOf node).Nodup := by
  rw [links.children]
  exact List.nodup_range.filter _

theorem Linked.labelled_children (links : Linked forest) :
    ((forest.childrenOf node).filter fun id => forest.steps[id]?.any (·.label == label)) =
      (forest.child? node label).toList := by
  refine filter_eq_toList_find? links.nodup_childrenOf fun first below second also labelled again => ?_
  exact links.step_unique (links.key_of_child below labelled) (links.key_of_child also again)

theorem Linked.mem_follow (links : Linked forest) {word : List StepLabel} {last : ChainNode}
    (start : forest.At node place) :
    last ∈ forest.follow node word ↔ forest.At last (place.along word) := by
  induction word generalizing node place with
  | nil =>
    simp only [follow, List.mem_singleton, Place.along_nil]
    exact ⟨fun same => same ▸ start, fun again => links.node_unique again start⟩
  | cons label rest ih =>
    rw [follow, links.labelled_children, List.mem_flatMap, Place.along_cons]
    constructor
    · rintro ⟨id, member, reached⟩
      have key := links.child?_eq_some.mp (Option.mem_toList.mp member)
      exact (ih (.step key start)).mp reached
    · intro reached
      obtain ⟨upper, stands⟩ := Stands.above reached
      generalize same : place.below label = goal at stands
      cases stands with
      | tree => exact absurd same.symm (Place.root_ne_below _ _ _)
      | @step id parent _ _ key above =>
        obtain ⟨rfl, rfl⟩ := Place.below_inj.mp same
        cases links.node_unique start above
        exact ⟨id, Option.mem_toList.mpr (links.child?_eq_some.mpr key),
          (ih (.step key start)).mpr reached⟩

theorem Linked.follow_length (links : Linked forest) {word : List StepLabel} :
    (forest.follow node word).length ≤ 1 := by
  induction word generalizing node with
  | nil => exact Nat.le_refl 1
  | cons label rest ih =>
    rw [follow, links.labelled_children]
    cases forest.child? node label with
    | none => exact Nat.zero_le 1
    | some id => simpa using ih

theorem Linked.follow_eq_singleton (links : Linked forest) {word : List StepLabel} {last : ChainNode}
    (start : forest.At node place) (here : forest.At last (place.along word)) :
    forest.follow node word = [last] := by
  have member := (links.mem_follow start).mpr here
  have single : (forest.follow node word).length ≤ 1 := links.follow_length
  cases reached : forest.follow node word with
  | nil =>
    rw [reached] at member
    cases member
  | cons first rest =>
    rw [reached] at member single
    have rest_nil : rest = [] := List.eq_nil_of_length_eq_zero (by simpa using single)
    rw [rest_nil, List.mem_singleton] at member
    rw [rest_nil, member]

theorem Linked.exists_at (links : Linked forest) {id : StepId} {step : Step}
    (found : forest.steps[id]? = some step) : ∃ above, forest.At step.parent above ∧
      forest.At (.step id) (above.below step.label) := by
  have key : forest.keys[id]? = some step.key := key_at.mpr ⟨step, found, rfl⟩
  obtain ⟨place, here⟩ := Stands.exists_place links.ordered (List.getElem?_eq_some_iff.mp key).1
  cases here with
  | step again above =>
    cases key.symm.trans again
    exact ⟨_, above, .step again above⟩

theorem step_of_at (deep : place.word ≠ []) (here : forest.At node place) :
    ∃ id step, node = .step id ∧ forest.steps[id]? = some step := by
  cases here with
  | tree => exact absurd rfl deep
  | step found =>
    obtain ⟨step, there, _⟩ := key_at.mp found
    exact ⟨_, step, rfl, there⟩

end

theorem mem_nearPatterns {forest : Forest} {step : Step} {id : PatternId} :
    id ∈ forest.nearPatterns step ↔ ∃ sibling ∈ forest.childrenOf step.parent, ∃ other,
      forest.steps[sibling]? = some other ∧ id ∈ other.patterns := by
  have gathered (siblings : List StepId) (start : OrderedSet PatternId) :
      id ∈ siblings.foldl (fun found sibling =>
          (forest.steps[sibling]?.map Step.patterns).elim found found.union) start ↔
        id ∈ start ∨ ∃ sibling ∈ siblings, ∃ other,
          forest.steps[sibling]? = some other ∧ id ∈ other.patterns := by
    induction siblings generalizing start with
    | nil => simp
    | cons first rest ih =>
      rw [List.foldl_cons, ih]
      cases found : forest.steps[first]? with
      | none => simp [found]
      | some other => simp [found, or_assoc, or_comm]
  unfold nearPatterns
  rw [gathered]
  simp

end PlanGraph.Forest
