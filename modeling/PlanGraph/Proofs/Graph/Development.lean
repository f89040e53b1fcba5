import PlanGraph.Proofs.Graph.Gains
import PlanGraph.Proofs.Graph.Inclusion

/-! How a forest develops when paths are included. Every change keeps the links that fit together and
the places of the nodes, and the whole inclusion of a path adds exactly the marks of that path. -/

set_option autoImplicit false
namespace PlanGraph

/-! The changes that an inclusion makes to single steps and trees. -/

def Step.serve (step : Step) (pattern : PatternId) : Step :=
  { step with patterns := step.patterns.insert pattern }

def Step.requireCheck (step : Step) : Step := { step with check := some true }

def SearchTree.serve (tree : SearchTree) (pattern : PatternId) : SearchTree :=
  { tree with patterns := tree.patterns.insert pattern }

def SearchTree.enter (tree : SearchTree) (inclusion : Inclusion) : SearchTree :=
  { tree with
    fromTypes := tree.fromTypes.insert inclusion.fromType
    seeds := tree.seeds.insertAll inclusion.path.seeds
    cycles := tree.cycles.union inclusion.cycles
    length := tree.length + inclusion.path.steps.length }

namespace Forest

/-- The second forest is a later state of the first one, with links that fit and with gained marks. -/
structure Develops {Pattern : Type} (name : PatternId → Option Pattern) (first second : Forest)
    (gained : Mark Pattern → Prop) : Prop where
  links : Linked second
  larger : Within first second
  gains : Gains name first second gained

section
variable {Pattern : Type} {name : PatternId → Option Pattern} {first second third forest : Forest}
  {gained later : Mark Pattern → Prop} {node : ChainNode} {place : Place}

theorem Develops.trans (early : Develops name first second gained)
    (late : Develops name second third later) :
    Develops name first third fun mark => gained mark ∨ later mark :=
  ⟨late.links, early.larger.trans late.larger, early.gains.trans late.gains⟩

theorem Develops.congr (develops : Develops name first second gained)
    (same : ∀ mark, gained mark ↔ later mark) : Develops name first second later :=
  ⟨develops.links, develops.larger, develops.gains.congr same⟩

theorem SameLinks.develops (same : SameLinks first second) (links : Linked first)
    (gains : Gains name first second gained) : Develops name first second gained :=
  ⟨same.linked links, same.within, gains⟩

theorem modifyStep_develops {id : StepId} {stepGained : StepMark Pattern → Prop}
    (links : Linked forest) (here : forest.At (.step id) place) (change : Step → Step)
    (key : ∀ step, (change step).key = step.key)
    (children : ∀ step, (change step).children = step.children)
    (effect : ∀ step, forest.steps[id]? = some step → ∀ mark,
      (change step).content.Carries name mark ↔ step.content.Carries name mark ∨ stepGained mark) :
    Develops name forest (forest.modifyStep id change) fun mark =>
      ∃ stepMark, mark = .step place stepMark ∧ stepGained stepMark := by
  have same := sameLinks_modifyStep forest id key children
  exact same.develops links (gains_modifyStep same here effect)

theorem modifyTree_develops {id : TreeId} {fingerprint : Fingerprint}
    {treeGained : TreeMark Pattern → Prop} (links : Linked forest)
    (here : forest.fingerprints[id]? = some fingerprint) (change : SearchTree → SearchTree)
    (kept : ∀ tree, (change tree).fingerprint = tree.fingerprint)
    (children : ∀ tree, (change tree).children = tree.children)
    (effect : ∀ tree mark,
      (change tree).content.Carries name mark ↔ tree.content.Carries name mark ∨ treeGained mark) :
    Develops name forest (forest.modifyTree id change) fun mark =>
      ∃ treeMark, mark = .tree fingerprint treeMark ∧ treeGained treeMark := by
  have same := sameLinks_modifyTree forest id kept children
  exact same.develops links (gains_modifyTree kept here effect)

theorem carries_expect (name : PatternId → Option Pattern) (type : Iri) (step : Step)
    (mark : StepMark Pattern) :
    (step.expect type).content.Carries name mark ↔ step.content.Carries name mark ∨ mark = .type type := by
  cases mark <;> simp [Step.expect, Step.content, StepContent.Carries, or_comm]

theorem carries_serve (name : PatternId → Option Pattern) (id : PatternId) (step : Step)
    (mark : StepMark Pattern) :
    (step.serve id).content.Carries name mark ↔
      step.content.Carries name mark ∨ ∃ pattern, mark = .pattern pattern ∧ name id = some pattern := by
  cases mark <;> simp [Step.serve, Step.content, StepContent.Carries, or_and_right, exists_or, or_comm]

theorem carries_requireCheck (name : PatternId → Option Pattern) (step : Step)
    (unrefused : step.check ≠ some false) (mark : StepMark Pattern) :
    step.requireCheck.content.Carries name mark ↔
      step.content.Carries name mark ∨ mark = .check true := by
  cases mark with
  | check value =>
    cases value <;> simp [Step.requireCheck, Step.content, StepContent.Carries, unrefused]
  | _ => simp [Step.requireCheck, Step.content, StepContent.Carries]

theorem tree_carries_serve (name : PatternId → Option Pattern) (id : PatternId) (tree : SearchTree)
    (mark : TreeMark Pattern) :
    (tree.serve id).content.Carries name mark ↔
      tree.content.Carries name mark ∨ ∃ pattern, mark = .pattern pattern ∧ name id = some pattern := by
  cases mark <;>
    simp [SearchTree.serve, SearchTree.content, TreeContent.Carries, or_and_right, exists_or, or_comm]

theorem carries_enter (name : PatternId → Option Pattern) (inclusion : Inclusion)
    (tree : SearchTree) (mark : TreeMark Pattern) :
    (tree.enter inclusion).content.Carries name mark ↔
      tree.content.Carries name mark ∨ EntryMark inclusion mark := by
  cases mark <;>
    simp [SearchTree.enter, SearchTree.content, TreeContent.Carries, EntryMark, or_comm]

theorem expect_develops {id : StepId} (links : Linked forest) (here : forest.At (.step id) place)
    (type : Iri) :
    Develops name forest (forest.modifyStep id (·.expect type)) (· = .step place (.type type)) := by
  have changed := modifyStep_develops links here (·.expect type) (fun _ => rfl) (fun _ => rfl)
    fun step _ => carries_expect name type step
  refine changed.congr fun mark => ?_
  simp

theorem requireCheck_develops (links : Linked forest) (here : forest.At node place)
    (deep : place.word ≠ []) (unrefused : ∀ other, ¬forest.Bears name (.step other (.check false))) :
    Develops name forest (forest.requireCheck node) (· = .step place (.check true)) := by
  cases node with
  | tree number =>
    cases here with
    | tree => exact absurd rfl deep
  | step number =>
    have willing : ∀ step, forest.steps[number]? = some step → step.check ≠ some false :=
      fun step found refused => unrefused place ⟨number, step, here, found, refused⟩
    have changed := modifyStep_develops links here Step.requireCheck (fun _ => rfl) (fun _ => rfl)
      fun step found => carries_requireCheck name step (willing step found)
    refine Develops.congr changed fun mark => ?_
    simp

theorem addPattern_develops (links : Linked forest) (here : forest.At node place) (id : PatternId) :
    Develops name forest (forest.addPattern node id) fun mark =>
      ∃ pattern, name id = some pattern ∧ mark = patternMark place pattern := by
  cases node with
  | tree number =>
    cases here with
    | tree found =>
      have changed := modifyTree_develops links found (·.serve id) (fun _ => rfl) (fun _ => rfl)
        fun tree => tree_carries_serve name id tree
      refine Develops.congr changed fun mark => ?_
      simp [patternMark, Place.root, and_comm]
  | step number =>
    have nonempty : place.word ≠ [] := by
      cases here with
      | step => simp [Place.below]
    have changed := modifyStep_develops links here (·.serve id) (fun _ => rfl) (fun _ => rfl)
      fun step _ => carries_serve name id step
    refine Develops.congr changed fun mark => ?_
    simp [patternMark, nonempty, and_comm]

theorem descend_develops (name : PatternId → Option Pattern) (word : List (StepLabel × Iri))
    (links : Linked forest) (here : forest.At node place) :
    Develops name forest (forest.descend node word).1 (TrailMark (place.trail word)) ∧
      (forest.descend node word).1.At (forest.descend node word).2 (place.along (word.map (·.1))) := by
  -- The word is followed from the top, so the forest and the place vary with it.
  induction word generalizing forest node place with
  | nil =>
    refine ⟨⟨links, .refl forest, fun mark => ?_⟩, by simpa [descend] using here⟩
    simp [TrailMark, Place.trail, descend]
  | cons first rest ih =>
    obtain ⟨label, type⟩ := first
    have grown : Grown forest (place.below label) (forest.grow node label) := links.grow here
    have step : Develops name forest (forest.grow node label).1 (· = .step (place.below label) .present) :=
      ⟨grown.links, grown.larger, gains_grow links here⟩
    have typed : Develops name _ _ (· = .step (place.below label) (.type type)) :=
      expect_develops grown.links grown.here type
    obtain ⟨deeper, last⟩ := ih typed.links (typed.larger.at_place grown.here)
    have whole := (step.trans typed).trans deeper
    refine ⟨⟨whole.links, whole.larger, whole.gains.congr fun mark => ?_⟩, ?_⟩
    · simp [TrailMark, Place.trail]
    · rw [List.map_cons, Place.along_cons]
      exact last

end

section
variable {Pattern : Type} {name : PatternId → Option Pattern} {forest : Forest}

def takeIn (forest : Forest) (id : PatternId) (inclusion : Inclusion) : Forest :=
  forest.includePath id inclusion.pattern inclusion.cycles.elements inclusion.path inclusion.fromType

theorem includePath_eq_takeIn (forest : Forest) (id : PatternId) (inclusion : Inclusion)
    {cycles : List CycleId} (same : ∀ cycle, cycle ∈ cycles ↔ cycle ∈ inclusion.cycles) :
    forest.includePath id inclusion.pattern cycles inclusion.path inclusion.fromType =
      forest.takeIn id inclusion := by
  have gathered (tree : SearchTree) :
      tree.cycles.insertAll cycles = tree.cycles.insertAll inclusion.cycles.elements :=
    OrderedSet.ext fun cycle => by
      rw [OrderedSet.mem_insertAll, OrderedSet.mem_insertAll, same, OrderedSet.mem_def]
  unfold takeIn includePath SearchTree.enterPath
  simp only [gathered]

theorem takeIn_develops (links : Linked forest)
    (unrefused : ∀ place, ¬forest.Bears name (.step place (.check false))) {inclusion : Inclusion}
    {id : PatternId} {called : Pattern} (named : name id = some called) :
    Develops name forest (forest.takeIn id inclusion) (inclusion.Leaves called) := by
  have planted : Planted forest inclusion.fingerprint (forest.plant inclusion.fingerprint) := links.plant
  have tree : Develops name forest (forest.plant inclusion.fingerprint).1
      (· = .tree inclusion.fingerprint .present) := ⟨planted.links, planted.larger, gains_plant links⟩
  have entered := modifyTree_develops planted.links planted.here (·.enter inclusion) (fun _ => rfl)
    (fun _ => rfl) (carries_enter name inclusion)
  have root := entered.larger.at_place (.tree planted.here)
  obtain ⟨descended, last⟩ := descend_develops name inclusion.steps entered.links root
  rw [inclusion.steps_labels] at last
  have served : Develops name _ _ fun mark => ∃ pattern, name id = some pattern ∧
      mark = patternMark inclusion.finish pattern := addPattern_develops descended.links last id
  have before := ((tree.trans entered).trans descended).trans served
  by_cases checks : inclusion.Checks
  -- A check can be required only where none is refused, and inclusion refuses none.
  · have still : ∀ other, ¬Forest.Bears _ name (.step other (.check false)) := fun other refused => by
      have unlike : ∀ pattern, (.step other (.check false) : Mark Pattern) ≠
          patternMark inclusion.finish pattern := fun pattern => step_ne_patternMark pattern (by simp)
      have refused := (before.gains _).mp refused
      simp [unrefused other, TrailMark, unlike] at refused
    have required := requireCheck_develops served.links (served.larger.at_place last)
      (Inclusion.labels_ne_nil checks) still
    have changed : forest.takeIn id inclusion = _ := if_pos checks
    rw [changed]
    refine (before.trans required).congr fun mark => ?_
    rw [inclusion.leaves_iff]
    simp [checks, named, or_assoc, Inclusion.finish, Place.along, Place.root]
  · have unchanged : forest.takeIn id inclusion = _ := if_neg checks
    rw [unchanged]
    refine before.congr fun mark => ?_
    rw [inclusion.leaves_iff]
    simp [checks, named, or_assoc]

end
end Forest
end PlanGraph
