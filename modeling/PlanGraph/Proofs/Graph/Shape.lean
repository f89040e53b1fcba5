import Mathlib.Data.List.Basic
import PlanGraph.Proofs.Graph.Development

/-! Forests made of inclusions. Such a forest bears their marks and nothing else, which gives it its
shape: the words of paths are closed by leaves, so a leaf ends its chain and serves a pattern, and a step
of a property leads on and serves none. The patterns near a step are those of the leaf beside it. -/

set_option autoImplicit false
namespace PlanGraph

def Forest.ofInclusions (number : TriplePattern → PatternId) (inclusions : List Inclusion) : Forest :=
  inclusions.foldl (fun forest inclusion => forest.takeIn (number inclusion.pattern) inclusion) .empty

theorem ofInclusions_congr {list : List Inclusion} {number other : TriplePattern → PatternId}
    (same : ∀ inclusion ∈ list, other inclusion.pattern = number inclusion.pattern) :
    Forest.ofInclusions other list = Forest.ofInclusions number list :=
  List.foldl_ext _ _ _ fun forest inclusion member => by rw [same inclusion member]

theorem ofInclusions_develops {Pattern : Type} {name : PatternId → Option Pattern}
    {number : TriplePattern → PatternId} {called : TriplePattern → Pattern}
    (inclusions : List Inclusion)
    (named : ∀ inclusion ∈ inclusions, name (number inclusion.pattern) = some (called inclusion.pattern)) :
    Forest.Develops name .empty (Forest.ofInclusions number inclusions) fun mark =>
      ∃ inclusion ∈ inclusions, inclusion.Leaves (called inclusion.pattern) mark := by
  -- Inclusions are taken in from the left: the last one meets the forest of all earlier ones.
  induction inclusions using List.reverseRecOn with
  | nil => exact ⟨Forest.linked_empty, .refl _, fun mark => by simp [Forest.ofInclusions]⟩
  | append_singleton earlier last ih =>
    have before := ih fun inclusion member => named inclusion (List.mem_append_left _ member)
    have unrefused : ∀ place,
        ¬(Forest.ofInclusions number earlier).Bears name (.step place (.check false)) := by
      intro place refused
      rcases (before.gains _).mp refused with ⟨_, _, _, found, _⟩ | ⟨_, _, _, _, _, _, _, impossible⟩
      · cases found
      · cases impossible
    have taken : Forest.Develops name _ _ (last.Leaves (called last.pattern)) :=
      Forest.takeIn_develops before.links unrefused (named last (by simp))
    have whole : Forest.ofInclusions number (earlier ++ [last]) =
        (Forest.ofInclusions number earlier).takeIn (number last.pattern) last := by
      simp [Forest.ofInclusions]
    rw [whole]
    refine (before.trans taken).congr fun mark => ?_
    simp [or_and_right, exists_or]

namespace Inclusion
variable {inclusion : Inclusion} {word : List StepLabel} {label : StepLabel}

theorem last_is_leaf (whole : inclusion.labels = word ++ [label]) : label = .leaf := by
  rcases inclusion.path.labels_closed inclusion.pattern with empty | ⟨names, closed⟩
  · rw [labels, empty] at whole
    simp at whole
  · rw [labels, closed] at whole
    exact (List.singleton_inj.mp (List.append_inj' whole rfl).2).symm

theorem nothing_after_leaf (short : word ++ [.leaf] ++ [label] <+: inclusion.labels) : False := by
  have whole : inclusion.labels = word ++ [.leaf] :=
    PlannedPath.labels_eq_of_leaf ((List.prefix_append _ _).trans short)
  have length := short.length_le
  rw [whole] at length
  simp at length

theorem exists_after_property {name : Iri} (short : word ++ [.property name] <+: inclusion.labels) :
    ∃ next, word ++ [.property name] ++ [next] <+: inclusion.labels := by
  obtain ⟨rest, whole⟩ := short
  cases rest with
  | nil =>
    rw [List.append_nil] at whole
    cases last_is_leaf whole.symm
  | cons next rest => exact ⟨next, rest, by rw [← whole]; simp⟩

end Inclusion

namespace Forest
variable {forest : Forest}

/-- A leaf below the parent of a step, which may be the step itself. -/
def LeafBeside (forest : Forest) (step leaf : Step) : Prop :=
  ∃ id ∈ forest.childrenOf step.parent, forest.steps[id]? = some leaf ∧ leaf.label = .leaf

theorem Linked.leaf_unique (links : forest.Linked) {step leaf other : Step}
    (first : forest.LeafBeside step leaf) (second : forest.LeafBeside step other) : leaf = other := by
  obtain ⟨id, below, found, closes⟩ := first
  obtain ⟨otherId, alsoBelow, alsoFound, alsoCloses⟩ := second
  have key : forest.keys[id]? = some (step.parent, .leaf) :=
    links.key_of_child below (by simp [found, closes])
  have otherKey : forest.keys[otherId]? = some (step.parent, .leaf) :=
    links.key_of_child alsoBelow (by simp [alsoFound, alsoCloses])
  cases links.step_unique key otherKey
  exact Option.some.inj (found.symm.trans alsoFound)

/-- The forest bears the marks of the inclusions, and its links fit. -/
structure MadeOf (forest : Forest) (number : TriplePattern → PatternId) (inclusions : List Inclusion) :
    Prop where
  links : forest.Linked
  bears : ∀ mark : Mark PatternId, forest.Bears some mark ↔
    ∃ inclusion ∈ inclusions, inclusion.Leaves (number inclusion.pattern) mark

theorem madeOf_ofInclusions (number : TriplePattern → PatternId) (inclusions : List Inclusion) :
    (ofInclusions number inclusions).MadeOf number inclusions := by
  have develops : Develops some empty (ofInclusions number inclusions) fun mark =>
      ∃ inclusion ∈ inclusions, inclusion.Leaves (number inclusion.pattern) mark :=
    ofInclusions_develops inclusions fun _ _ => rfl
  exact ⟨develops.links, fun mark => (develops.gains mark).trans (or_iff_right (not_bears_empty mark))⟩

namespace MadeOf
variable {number : TriplePattern → PatternId} {inclusions : List Inclusion} {id : StepId} {step : Step}

theorem takeIn_develops (made : forest.MadeOf number inclusions) (last : Inclusion) :
    Develops some forest (forest.takeIn (number last.pattern) last)
      (last.Leaves (number last.pattern)) := by
  -- No inclusion refuses a check, so another check can be taken in.
  refine Forest.takeIn_develops made.links (fun place refused => ?_) rfl
  obtain ⟨_, _, _, _, _, _, _, impossible⟩ := (made.bears _).mp refused
  cases impossible

theorem carries_iff (made : forest.MadeOf number inclusions) {place : Place}
    (here : forest.At (.step id) place) (found : forest.steps[id]? = some step)
    (mark : StepMark PatternId) : step.content.Carries some mark ↔
      ∃ inclusion ∈ inclusions, inclusion.Leaves (number inclusion.pattern) (.step place mark) :=
  (made.links.bears_step_iff here found some mark).symm.trans (made.bears (.step place mark))

theorem tree_carries_iff (made : forest.MadeOf number inclusions) {tree : SearchTree}
    (member : tree ∈ forest.trees) (mark : TreeMark PatternId) : tree.content.Carries some mark ↔
      ∃ inclusion ∈ inclusions, inclusion.fingerprint = tree.fingerprint ∧
        inclusion.LeavesOnTree (number inclusion.pattern) mark :=
  (made.links.bears_tree_iff member some mark).symm.trans (made.bears (.tree tree.fingerprint mark))

theorem exists_child_iff (made : forest.MadeOf number inclusions) {node : ChainNode} {place : Place}
    (here : forest.At node place) {label : StepLabel} :
    (∃ id : StepId, forest.keys[id]? = some (node, label)) ↔ ∃ inclusion ∈ inclusions,
      inclusion.fingerprint = place.fingerprint ∧ place.word ++ [label] <+: inclusion.labels := by
  have present := made.bears (.step (place.below label) .present)
  constructor
  · rintro ⟨id, key⟩
    obtain ⟨step, found, _⟩ := key_at.mp key
    obtain ⟨inclusion, member, same, _, short, _⟩ :=
      present.mp ⟨id, step, .step key here, found, trivial⟩
    exact ⟨inclusion, member, same, short⟩
  · rintro ⟨inclusion, member, same, short⟩
    have deep : (place.below label).word ≠ [] := by simp [Place.below]
    obtain ⟨id, _, stands, _, _⟩ := present.mpr ⟨inclusion, member, same, deep, short, trivial⟩
    -- The step at that place hangs below a node at the place above, and that is the node itself.
    generalize equal : place.below label = goal at stands
    cases stands with
    | step key above =>
      obtain ⟨rfl, rfl⟩ := Place.below_inj.mp equal
      cases made.links.node_unique here above
      exact ⟨id, key⟩

theorem exists_passing (made : forest.MadeOf number inclusions)
    (found : forest.steps[id]? = some step) :
    ∃ above : Place, forest.At (.step id) (above.below step.label) ∧ ∃ inclusion ∈ inclusions,
      inclusion.fingerprint = above.fingerprint ∧ above.word ++ [step.label] <+: inclusion.labels := by
  obtain ⟨above, parent, here⟩ := made.links.exists_at found
  exact ⟨above, here, (made.exists_child_iff parent).mp ⟨id, key_at.mpr ⟨step, found, rfl⟩⟩⟩

theorem no_starts (made : forest.MadeOf number inclusions) (found : forest.steps[id]? = some step)
    (cycle : CycleId) : ¬cycle ∈ step.cycleStarts := by
  intro starts
  obtain ⟨above, _, here⟩ := made.links.exists_at found
  obtain ⟨_, _, _, _, _, impossible⟩ := (made.carries_iff here found (.start cycle)).mp starts
  exact impossible

theorem exists_type (made : forest.MadeOf number inclusions) (found : forest.steps[id]? = some step) :
    ∃ type, type ∈ step.types := by
  obtain ⟨above, here, inclusion, member, same, short⟩ := made.exists_passing found
  have deep : above.word ++ [step.label] ≠ [] := by simp
  obtain ⟨type, declared⟩ := Inclusion.exists_type deep short
  exact ⟨type, (made.carries_iff here found (.type type)).mpr
    ⟨inclusion, member, same, deep, short, declared⟩⟩

theorem leaf_of_serves (made : forest.MadeOf number inclusions)
    (found : forest.steps[id]? = some step) {served : PatternId} (serves : served ∈ step.patterns) :
    step.label = .leaf ∧ ∃ inclusion ∈ inclusions, served = number inclusion.pattern := by
  obtain ⟨above, _, here⟩ := made.links.exists_at found
  obtain ⟨inclusion, member, _, _, _, whole, named⟩ :=
    (made.carries_iff here found (.pattern served)).mp ⟨served, serves, rfl⟩
  exact ⟨Inclusion.last_is_leaf whole.symm, inclusion, member, named⟩

theorem leaf_of_checked (made : forest.MadeOf number inclusions)
    (found : forest.steps[id]? = some step) {value : Bool} (checked : step.check = some value) :
    step.label = .leaf := by
  obtain ⟨above, _, here⟩ := made.links.exists_at found
  obtain ⟨inclusion, _, _, _, _, whole, _⟩ := (made.carries_iff here found (.check value)).mp checked
  exact Inclusion.last_is_leaf whole.symm

theorem serves_of_leaf (made : forest.MadeOf number inclusions)
    (found : forest.steps[id]? = some step) (closes : step.label = .leaf) :
    ∃ served, served ∈ step.patterns := by
  obtain ⟨above, here, inclusion, member, same, short⟩ := made.exists_passing found
  have whole : inclusion.labels = above.word ++ [step.label] := by
    rw [closes] at short ⊢
    exact PlannedPath.labels_eq_of_leaf short
  have deep : above.word ++ [step.label] ≠ [] := by simp
  obtain ⟨served, serves, _⟩ := (made.carries_iff here found (.pattern (number inclusion.pattern))).mpr
    ⟨inclusion, member, same, deep, short, whole.symm, rfl⟩
  exact ⟨served, serves⟩

theorem no_child_of_leaf (made : forest.MadeOf number inclusions)
    (found : forest.steps[id]? = some step) (closes : step.label = .leaf) : step.children = [] := by
  refine List.eq_nil_iff_forall_not_mem.mpr fun child below => ?_
  have below : child ∈ forest.childrenOf (.step id) := by simpa [childrenOf, found] using below
  obtain ⟨label, key⟩ := made.links.mem_childrenOf.mp below
  obtain ⟨above, _, here⟩ := made.links.exists_at found
  obtain ⟨inclusion, _, _, short⟩ := (made.exists_child_iff here).mp ⟨child, key⟩
  rw [closes] at short
  exact Inclusion.nothing_after_leaf short

theorem exists_child_of_property (made : forest.MadeOf number inclusions)
    (found : forest.steps[id]? = some step) {name : Iri} (follows : step.label = .property name) :
    step.children ≠ [] := by
  obtain ⟨above, here, inclusion, member, same, short⟩ := made.exists_passing found
  have further : ∃ next, (above.below step.label).word ++ [next] <+: inclusion.labels := by
    rw [follows] at short ⊢
    exact Inclusion.exists_after_property short
  obtain ⟨next, short⟩ := further
  obtain ⟨child, key⟩ := (made.exists_child_iff here).mpr ⟨inclusion, member, same, short⟩
  have below := made.links.mem_childrenOf.mpr ⟨next, key⟩
  exact List.ne_nil_of_mem (by simpa [childrenOf, found] using below)

theorem mem_nearPatterns (made : forest.MadeOf number inclusions) {served : PatternId} :
    served ∈ forest.nearPatterns step ↔ ∃ leaf, forest.LeafBeside step leaf ∧ served ∈ leaf.patterns := by
  rw [Forest.mem_nearPatterns]
  constructor
  · rintro ⟨sibling, below, leaf, found, serves⟩
    exact ⟨leaf, ⟨sibling, below, found, (made.leaf_of_serves found serves).1⟩, serves⟩
  · rintro ⟨leaf, ⟨sibling, below, found, _⟩, serves⟩
    exact ⟨sibling, below, leaf, found, serves⟩

end MadeOf
end Forest

end PlanGraph
