import PlanGraph.Proofs.Graph.InitialGraph

/-! The lengths of trees. A tree is as long as all paths from its seeds together. -/

set_option autoImplicit false
namespace PlanGraph

def Inclusion.lengthAt (inclusion : Inclusion) (fingerprint : Fingerprint) : Nat :=
  if inclusion.fingerprint = fingerprint then inclusion.path.steps.length else 0

def totalLength (inclusions : List Inclusion) (fingerprint : Fingerprint) : Nat :=
  inclusions.foldl (fun total inclusion => total + inclusion.lengthAt fingerprint) 0

namespace Forest

def lengths (forest : Forest) : List (Fingerprint × Nat) :=
  forest.trees.map fun tree => (tree.fingerprint, tree.length)

section
variable {forest : Forest} {node : ChainNode}

theorem lengths_grow (label : StepLabel) : (forest.grow node label).1.lengths = forest.lengths := by
  cases found : forest.child? node label with
  | some id => rw [grow_of_some found]
  | none =>
    rw [grow_of_none found]
    cases node with
    | tree id => exact map_modify_of_eq fun _ => rfl
    | step id => rfl

theorem lengths_descend (word : List (StepLabel × Iri)) :
    (forest.descend node word).1.lengths = forest.lengths := by
  induction word generalizing forest node with
  | nil => rfl
  | cons first rest ih =>
    rw [descend, ih]
    exact lengths_grow first.1

theorem lengths_addPattern (id : PatternId) : (forest.addPattern node id).lengths = forest.lengths := by
  cases node with
  | tree number => exact map_modify_of_eq fun _ => rfl
  | step number => rfl

theorem lengths_requireCheck : (forest.requireCheck node).lengths = forest.lengths := by
  cases node <;> rfl

theorem lengths_takeIn (id : PatternId) (inclusion : Inclusion) :
    (forest.takeIn id inclusion).lengths = ((forest.plant inclusion.fingerprint).1.modifyTree
      (forest.plant inclusion.fingerprint).2 (·.enter inclusion)).lengths := by
  unfold takeIn includePath
  dsimp only
  split
  · rw [lengths_requireCheck, lengths_addPattern, lengths_descend]
    rfl
  · rw [lengths_addPattern, lengths_descend]
    rfl

theorem mem_lengths_plant {fingerprint planted : Fingerprint} {length : Nat}
    (member : (fingerprint, length) ∈ (forest.plant planted).1.lengths) :
    (fingerprint, length) ∈ forest.lengths ∨ length = 0 ∧ forest.treeWith? fingerprint = none := by
  cases found : forest.treeWith? planted with
  | some number =>
    rw [plant_of_some found] at member
    exact Or.inl member
  | none =>
    rw [plant_of_none found, lengths, withTree, List.map_append] at member
    rcases List.mem_append.mp member with before | new
    · exact Or.inl before
    · cases List.mem_singleton.mp new
      exact Or.inr ⟨rfl, found⟩

/-- A path makes the tree that it enters longer, and no other. -/
theorem mem_lengths_enter (links : Linked forest) {id : TreeId} {inclusion : Inclusion}
    (here : forest.fingerprints[id]? = some inclusion.fingerprint) {fingerprint : Fingerprint}
    {length : Nat} (member : (fingerprint, length) ∈ (forest.modifyTree id (·.enter inclusion)).lengths) :
    ∃ before, length = before + inclusion.lengthAt fingerprint ∧
      (fingerprint, before) ∈ forest.lengths := by
  obtain ⟨entered, was, named⟩ := fingerprint_at.mp here
  obtain ⟨tree, changed, same⟩ := List.mem_map.mp member
  cases same
  obtain ⟨number, there⟩ := List.getElem?_of_mem changed
  have there := getElem?_modify_eq_ite.symm.trans there
  split at there
  · next equal =>
    subst equal
    rw [was] at there
    cases there
    have same : inclusion.fingerprint = (entered.enter inclusion).fingerprint := named.symm
    refine ⟨entered.length, ?_, List.mem_map.mpr ⟨entered, List.mem_of_getElem? was, rfl⟩⟩
    rw [Inclusion.lengthAt, if_pos same]
    rfl
  · next elsewhere =>
    -- Fingerprints of trees are distinct, so a tree with another number has another fingerprint.
    have other : inclusion.fingerprint ≠ tree.fingerprint := by
      intro same
      have again := fingerprint_at.mpr ⟨tree, there, same.symm⟩
      have bound := (List.getElem?_eq_some_iff.mp here).1
      exact elsewhere ((List.getElem?_inj bound links.fingerprints_nodup).mp (here.trans again.symm))
    refine ⟨tree.length, ?_, List.mem_map.mpr ⟨tree, List.mem_of_getElem? there, rfl⟩⟩
    rw [Inclusion.lengthAt, if_neg other, Nat.add_zero]

theorem mem_lengths_takeIn (links : Linked forest) {id : PatternId} {inclusion : Inclusion}
    {fingerprint : Fingerprint} {length : Nat}
    (member : (fingerprint, length) ∈ (forest.takeIn id inclusion).lengths) :
    ∃ before, length = before + inclusion.lengthAt fingerprint ∧
      ((fingerprint, before) ∈ forest.lengths ∨
        before = 0 ∧ forest.treeWith? fingerprint = none) := by
  have planted : Planted forest inclusion.fingerprint (forest.plant inclusion.fingerprint) := links.plant
  rw [lengths_takeIn] at member
  obtain ⟨before, longer, old⟩ := mem_lengths_enter planted.links planted.here member
  exact ⟨before, longer, mem_lengths_plant old⟩

end
end Forest

theorem totalLength_concat (earlier : List Inclusion) (last : Inclusion) (fingerprint : Fingerprint) :
    totalLength (earlier ++ [last]) fingerprint =
      totalLength earlier fingerprint + last.lengthAt fingerprint := by
  simp [totalLength]

theorem totalLength_eq_zero {inclusions : List Inclusion} {fingerprint : Fingerprint}
    (none : ∀ inclusion ∈ inclusions, inclusion.lengthAt fingerprint = 0) :
    totalLength inclusions fingerprint = 0 := by
  induction inclusions using List.reverseRecOn with
  | nil => rfl
  | append_singleton earlier last ih =>
    rw [totalLength_concat, ih fun inclusion inside => none inclusion (by simp [inside]),
      none last (by simp)]

theorem length_ofInclusions {number : TriplePattern → PatternId} (inclusions : List Inclusion)
    {fingerprint : Fingerprint} {length : Nat}
    (member : (fingerprint, length) ∈ (Forest.ofInclusions number inclusions).lengths) :
    length = totalLength inclusions fingerprint := by
  induction inclusions using List.reverseRecOn generalizing length with
  | nil => cases member
  | append_singleton earlier last ih =>
    have develops : Forest.Develops some .empty (Forest.ofInclusions number earlier) fun mark =>
        ∃ inclusion ∈ earlier, inclusion.Leaves (number inclusion.pattern) mark :=
      ofInclusions_develops earlier fun _ _ => rfl
    have whole : Forest.ofInclusions number (earlier ++ [last]) =
        (Forest.ofInclusions number earlier).takeIn (number last.pattern) last := by
      simp [Forest.ofInclusions]
    rw [whole] at member
    obtain ⟨before, rfl, old | ⟨rfl, absent⟩⟩ := Forest.mem_lengths_takeIn develops.links member
    · rw [ih old, totalLength_concat]
    · -- A tree that is planted only now has no path from its seeds among the earlier ones.
      have none_before : ∀ inclusion ∈ earlier, inclusion.lengthAt fingerprint = 0 := by
        intro inclusion inside
        refine if_neg fun same => ?_
        obtain ⟨id, tree, found, named, _⟩ := (develops.gains (.tree fingerprint .present)).mpr
          (Or.inr ⟨inclusion, inside, same, trivial⟩)
        rw [develops.links.treeWith?_eq_some.mpr (Forest.fingerprint_at.mpr ⟨tree, found, named⟩)] at absent
        cases absent
      rw [totalLength_concat, totalLength_eq_zero none_before]

theorem totalLength_perm {first second : List Inclusion} (reordered : first.Perm second)
    (fingerprint : Fingerprint) : totalLength first fingerprint = totalLength second fingerprint :=
  reordered.foldl_eq' (fun _ _ _ _ _ => Nat.add_right_comm _ _ _) 0

end PlanGraph
