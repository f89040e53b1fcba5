import PlanGraph.Proofs.Graph.Marks

/-! What each operation on a forest adds. New trees and steps are present and nothing else; the other
operations put one kind of mark on one tree or step. -/

set_option autoImplicit false
namespace PlanGraph.Forest

section
variable {forest other : Forest} {place : Place} {fingerprint : Fingerprint}

theorem stepAt_iff {holds : StepContent (OrderedSet PatternId) → Prop} :
    forest.StepAt place holds ↔ ∃ id content, forest.At (.step id) place ∧
      (forest.steps.map Step.content)[id]? = some content ∧ holds content := by
  constructor
  · rintro ⟨id, step, stands, found, holding⟩
    exact ⟨id, step.content, stands, by simp [found], holding⟩
  · rintro ⟨id, content, stands, found, holding⟩
    rw [List.getElem?_map] at found
    obtain ⟨step, there, rfl⟩ := Option.map_eq_some_iff.mp found
    exact ⟨id, step, stands, there, holding⟩

theorem treeAt_iff {holds : TreeContent (OrderedSet PatternId) → Prop} :
    forest.TreeAt fingerprint holds ↔ ∃ content, (fingerprint, content) ∈
      forest.trees.map (fun tree => (tree.fingerprint, tree.content)) ∧ holds content := by
  constructor
  · rintro ⟨id, tree, found, rfl, holding⟩
    exact ⟨tree.content, List.mem_map.mpr ⟨tree, List.mem_of_getElem? found, rfl⟩, holding⟩
  · rintro ⟨content, member, holding⟩
    obtain ⟨tree, inside, same⟩ := List.mem_map.mp member
    cases same
    obtain ⟨id, found⟩ := List.getElem?_of_mem inside
    exact ⟨id, tree, found, rfl, holding⟩

end

section
variable {Pattern : Type} {name : PatternId → Option Pattern} {forest : Forest} {node : ChainNode}
  {place : Place} {label : StepLabel} {fingerprint : Fingerprint}

theorem contents_withChild : (forest.withChild node label).steps.map Step.content =
    forest.steps.map Step.content ++ [(Step.grown node label).content] := by
  have stepped : (forest.withStep (.grown node label)).steps.map Step.content =
      forest.steps.map Step.content ++ [(Step.grown node label).content] := by simp [withStep]
  rw [← stepped]
  cases node with
  | tree number => rfl
  | step number => exact map_modify_of_eq fun _ => rfl

theorem treeContents_withChild :
    (forest.withChild node label).trees.map (fun tree => (tree.fingerprint, tree.content)) =
      forest.trees.map fun tree => (tree.fingerprint, tree.content) := by
  cases node with
  | tree number => exact map_modify_of_eq fun _ => rfl
  | step number => rfl

theorem gains_withChild (links : Linked forest) (here : forest.At node place) :
    Gains name forest (forest.withChild node label) (· = .step (place.below label) .present) := by
  intro mark
  cases mark with
  | tree fingerprint mark =>
    simp only [Bears, treeAt_iff, treeContents_withChild, reduceCtorEq, or_false]
  | step other mark =>
    simp only [Bears, stepAt_iff, contents_withChild, Mark.step.injEq]
    have blank : (Step.grown node label).content.Carries name mark ↔ mark = .present := by
      cases mark <;> simp [Step.grown, Step.content, StepContent.Carries]
    constructor
    · rintro ⟨id, content, stands, found, carries⟩
      unfold At at stands
      rw [keys_withChild, fingerprints_withChild] at stands
      -- The new step has the last number and the place below its parent; all others are old.
      rcases Stands.of_add_step (links.ordered_concat (has_of_at here)) stands with
        old | ⟨same, above, upper, rfl⟩
      · have bound : id < forest.steps.length := has_of_at old
        rcases getElem?_concat_eq_some.mp found with found | ⟨rfl, _⟩
        · exact Or.inl ⟨id, content, old, found, carries⟩
        · exact absurd bound (by simp)
      · cases same
        rcases getElem?_concat_eq_some.mp found with old | ⟨_, rfl⟩
        · have bound := (List.getElem?_eq_some_iff.mp old).1
          rw [length_keys, List.length_map] at bound
          exact absurd bound (Nat.lt_irrefl _)
        · exact Or.inr ⟨by rw [Stands.place_unique upper here], blank.mp carries⟩
    · rintro (⟨id, content, stands, found, carries⟩ | ⟨rfl, rfl⟩)
      · exact ⟨id, content, within_withChild.at_place stands,
          getElem?_concat_eq_some.mpr (Or.inl found), carries⟩
      · refine ⟨forest.keys.length, _, .step ?_ (within_withChild.at_place here),
          getElem?_concat_eq_some.mpr (Or.inr ⟨by simp [keys], rfl⟩), blank.mpr rfl⟩
        rw [keys_withChild]
        exact List.getElem?_concat_length

theorem gains_present (id : StepId) (stands : forest.At (.step id) place) :
    Gains name forest forest (· = .step place .present) := by
  intro mark
  refine ⟨Or.inl, ?_⟩
  rintro (before | rfl)
  · exact before
  · have bound : id < forest.steps.length := has_of_at stands
    exact ⟨id, _, stands, List.getElem?_eq_getElem bound, trivial⟩

theorem gains_grow (links : Linked forest) (here : forest.At node place) :
    Gains name forest (forest.grow node label).1 (· = .step (place.below label) .present) := by
  cases found : forest.child? node label with
  | some id =>
    rw [grow_of_some found]
    exact gains_present id (.step (links.child?_eq_some.mp found) here)
  | none =>
    rw [grow_of_none found]
    exact gains_withChild links here

theorem gains_withTree (links : Linked forest) :
    Gains name forest (forest.withTree fingerprint) (· = .tree fingerprint .present) := by
  intro mark
  cases mark with
  | step place mark =>
    -- No step stands in the new tree yet.
    have same : ∀ id, (forest.withTree fingerprint).At (.step id) place ↔ forest.At (.step id) place := by
      intro id
      refine ⟨fun stands => ?_, within_withTree.at_place⟩
      unfold At at stands
      rw [fingerprints_withTree] at stands
      rcases Stands.of_add_tree links.ordered stands with old | ⟨new, _⟩
      · exact old
      · cases new
    have steps : (forest.withTree fingerprint).steps = forest.steps := rfl
    simp only [Bears, StepAt, same, steps, reduceCtorEq, or_false]
  | tree other mark =>
    have blank : (SearchTree.planted fingerprint).content.Carries name mark ↔ mark = .present := by
      cases mark <;> simp [SearchTree.planted, SearchTree.content, TreeContent.Carries]
    simp only [Bears, TreeAt, withTree, getElem?_concat_eq_some, Mark.tree.injEq]
    constructor
    · rintro ⟨id, tree, old | ⟨_, rfl⟩, named, carries⟩
      · exact Or.inl ⟨id, tree, old, named, carries⟩
      · exact Or.inr ⟨named.symm, blank.mp carries⟩
    · rintro (⟨id, tree, found, named, carries⟩ | ⟨rfl, rfl⟩)
      · exact ⟨id, tree, Or.inl found, named, carries⟩
      · exact ⟨_, _, Or.inr ⟨rfl, rfl⟩, rfl, blank.mpr rfl⟩

theorem gains_plant (links : Linked forest) :
    Gains name forest (forest.plant fingerprint).1 (· = .tree fingerprint .present) := by
  cases found : forest.treeWith? fingerprint with
  | some id =>
    rw [plant_of_some found]
    obtain ⟨tree, there, named⟩ := fingerprint_at.mp (links.treeWith?_eq_some.mp found)
    intro mark
    refine ⟨Or.inl, ?_⟩
    rintro (before | rfl)
    · exact before
    · exact ⟨id, tree, there, named, trivial⟩
  | none =>
    rw [plant_of_none found]
    exact gains_withTree links

theorem gains_modifyStep {id : StepId} {change : Step → Step} {gained : StepMark Pattern → Prop}
    (same : SameLinks forest (forest.modifyStep id change)) (here : forest.At (.step id) place)
    (effect : ∀ step, forest.steps[id]? = some step → ∀ mark,
      (change step).content.Carries name mark ↔ step.content.Carries name mark ∨ gained mark) :
    Gains name forest (forest.modifyStep id change) fun mark =>
      ∃ stepMark, mark = .step place stepMark ∧ gained stepMark := by
  intro mark
  cases mark with
  | tree fingerprint mark => simp [Bears, TreeAt, modifyStep]
  | step other mark =>
    have added : (forest.modifyStep id change).StepAt other (·.Carries name mark) ↔
        forest.StepAt other (·.Carries name mark) ∨ (other = place ∧ gained mark) :=
      stepAt_modifyStep same here (fun step found => effect step found mark) other
    refine added.trans ?_
    simp [Bears, Mark.step.injEq, and_assoc]

theorem gains_modifyTree {id : TreeId} {change : SearchTree → SearchTree}
    {gained : TreeMark Pattern → Prop} (kept : ∀ tree, (change tree).fingerprint = tree.fingerprint)
    (here : forest.fingerprints[id]? = some fingerprint)
    (effect : ∀ tree mark,
      (change tree).content.Carries name mark ↔ tree.content.Carries name mark ∨ gained mark) :
    Gains name forest (forest.modifyTree id change) fun mark =>
      ∃ treeMark, mark = .tree fingerprint treeMark ∧ gained treeMark := by
  have named : (forest.modifyTree id change).fingerprints = forest.fingerprints := map_modify_of_eq kept
  intro mark
  cases mark with
  | step place mark =>
    -- Places are told from fingerprints and keys, which the change keeps.
    have same : ∀ node, (forest.modifyTree id change).At node place ↔ forest.At node place := by
      intro node
      unfold At
      rw [named]
      rfl
    have steps : (forest.modifyTree id change).steps = forest.steps := rfl
    simp only [Bears, StepAt, same, steps, reduceCtorEq, false_and, exists_false, or_false]
  | tree other mark =>
    have added : (forest.modifyTree id change).TreeAt other (·.Carries name mark) ↔
        forest.TreeAt other (·.Carries name mark) ∨ (other = fingerprint ∧ gained mark) :=
      treeAt_modifyTree kept here (fun tree => effect tree mark) other
    refine added.trans ?_
    simp [Bears, Mark.tree.injEq, and_assoc]

end
end PlanGraph.Forest
