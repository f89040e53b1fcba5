import PlanGraph.Proofs.Graph.Growth

/-! The marks that a forest bears. A mark says of a fingerprint or of a place that something is there,
so marks say all that a forest holds except its numbers and its lengths. Every operation on a forest
adds marks of its own and keeps the others. -/

set_option autoImplicit false
namespace PlanGraph

@[ext]
structure StepContent (Patterns : Type) where
  types : OrderedSet Iri
  patterns : Patterns
  check : Option Bool
  cycleStarts : OrderedSet CycleId

@[ext]
structure TreeContent (Patterns : Type) where
  fromTypes : OrderedSet Iri
  seeds : OrderedSet Iri
  length : Nat
  cycles : OrderedSet CycleId
  patterns : Patterns

def Step.content (step : Step) : StepContent (OrderedSet PatternId) :=
  ⟨step.types, step.patterns, step.check, step.cycleStarts⟩

def SearchTree.content (tree : SearchTree) : TreeContent (OrderedSet PatternId) :=
  ⟨tree.fromTypes, tree.seeds, tree.length, tree.cycles, tree.patterns⟩

inductive StepMark (Pattern : Type)
  | present
  | type (type : Iri)
  | pattern (pattern : Pattern)
  | check (value : Bool)
  | start (cycle : CycleId)

inductive TreeMark (Pattern : Type)
  | present
  | source (type : Iri)
  | seed (seed : Iri)
  | cycle (cycle : CycleId)
  | pattern (pattern : Pattern)

/-- A statement about the tree of a fingerprint or the step at a place. -/
inductive Mark (Pattern : Type)
  | tree (fingerprint : Fingerprint) (mark : TreeMark Pattern)
  | step (place : Place) (mark : StepMark Pattern)

section
variable {Pattern : Type}

/-- Patterns are named by `name`, which may be their number itself. -/
def StepContent.Carries (name : PatternId → Option Pattern) (content : StepContent (OrderedSet PatternId)) :
    StepMark Pattern → Prop
  | .present => True
  | .type type => type ∈ content.types
  | .pattern pattern => ∃ id, id ∈ content.patterns ∧ name id = some pattern
  | .check value => content.check = some value
  | .start cycle => cycle ∈ content.cycleStarts

def TreeContent.Carries (name : PatternId → Option Pattern) (content : TreeContent (OrderedSet PatternId)) :
    TreeMark Pattern → Prop
  | .present => True
  | .source type => type ∈ content.fromTypes
  | .seed seed => seed ∈ content.seeds
  | .cycle cycle => cycle ∈ content.cycles
  | .pattern pattern => ∃ id, id ∈ content.patterns ∧ name id = some pattern

end

namespace Forest

def StepAt (forest : Forest) (place : Place) (holds : StepContent (OrderedSet PatternId) → Prop) : Prop :=
  ∃ id step, forest.At (.step id) place ∧ forest.steps[id]? = some step ∧ holds step.content

def TreeAt (forest : Forest) (fingerprint : Fingerprint)
    (holds : TreeContent (OrderedSet PatternId) → Prop) : Prop :=
  ∃ (id : TreeId) (tree : SearchTree), forest.trees[id]? = some tree ∧ tree.fingerprint = fingerprint ∧
    holds tree.content

section
variable {Pattern : Type}

def Bears (forest : Forest) (name : PatternId → Option Pattern) : Mark Pattern → Prop
  | .tree fingerprint mark => forest.TreeAt fingerprint (·.Carries name mark)
  | .step place mark => forest.StepAt place (·.Carries name mark)

/-- The second forest bears the marks of the first one and the gained ones. -/
def Gains (name : PatternId → Option Pattern) (first second : Forest) (gained : Mark Pattern → Prop) :
    Prop :=
  ∀ mark, second.Bears name mark ↔ first.Bears name mark ∨ gained mark

variable {name : PatternId → Option Pattern} {first second third : Forest}
  {gained later : Mark Pattern → Prop}

theorem not_bears_empty (mark : Mark Pattern) : ¬empty.Bears name mark := by
  cases mark with
  | tree fingerprint mark =>
    rintro ⟨id, tree, found, _⟩
    simp [empty] at found
  | step place mark =>
    rintro ⟨id, step, _, found, _⟩
    simp [empty] at found

theorem Gains.trans (early : Gains name first second gained) (late : Gains name second third later) :
    Gains name first third fun mark => gained mark ∨ later mark := fun mark => by
  rw [late mark, early mark, or_assoc]

theorem Gains.congr (gains : Gains name first second gained) (same : ∀ mark, gained mark ↔ later mark) :
    Gains name first second later := fun mark => by
  rw [gains mark, same mark]

end

section
variable {forest : Forest} {place : Place} {holds : StepContent (OrderedSet PatternId) → Prop}

theorem Linked.stepAt_iff (links : Linked forest) {id : StepId} {step : Step}
    (here : forest.At (.step id) place) (found : forest.steps[id]? = some step) :
    forest.StepAt place holds ↔ holds step.content := by
  refine ⟨?_, fun holding => ⟨id, step, here, found, holding⟩⟩
  rintro ⟨other, there, stands, also, holding⟩
  cases links.node_unique here stands
  rw [found] at also
  cases also
  exact holding

theorem stepAt_modifyStep {id : StepId} {change : Step → Step} {gained : Prop}
    (same : SameLinks forest (forest.modifyStep id change)) (here : forest.At (.step id) place)
    (effect : ∀ step, forest.steps[id]? = some step →
      (holds (change step).content ↔ holds step.content ∨ gained)) (other : Place) :
    (forest.modifyStep id change).StepAt other holds ↔
      forest.StepAt other holds ∨ (other = place ∧ gained) := by
  have found : ∀ number, (forest.modifyStep id change).steps[number]? =
      if id = number then forest.steps[number]?.map change else forest.steps[number]? :=
    fun number => getElem?_modify_eq_ite
  constructor
  · rintro ⟨number, step, stands, there, holding⟩
    have stands := same.at_iff.mp stands
    rw [found] at there
    split at there
    -- What the changed step holds it held before or has gained, and it stands at `place` only.
    · rename_i equal
      subst equal
      obtain ⟨old, was, rfl⟩ := Option.map_eq_some_iff.mp there
      rcases (effect old was).mp holding with before | new
      · exact Or.inl ⟨id, old, stands, was, before⟩
      · exact Or.inr ⟨Stands.place_unique stands here, new⟩
    · exact Or.inl ⟨number, step, stands, there, holding⟩
  · rintro (⟨number, step, stands, there, holding⟩ | ⟨rfl, new⟩)
    · have stands := same.at_iff.mpr stands
      by_cases equal : id = number
      · subst equal
        exact ⟨id, change step, stands, by simp [found, there], (effect step there).mpr (Or.inl holding)⟩
      · exact ⟨number, step, stands, by simp [found, equal, there], holding⟩
    · have bound : id < forest.steps.length := has_of_at here
      have there := List.getElem?_eq_getElem bound
      exact ⟨id, _, same.at_iff.mpr here, by simp only [found, there, if_true, Option.map_some],
        (effect _ there).mpr (Or.inr new)⟩

end

section
variable {forest : Forest} {fingerprint : Fingerprint}
  {holds : TreeContent (OrderedSet PatternId) → Prop}

theorem Linked.treeAt_iff (links : Linked forest) {tree : SearchTree} (member : tree ∈ forest.trees)
    (named : tree.fingerprint = fingerprint) :
    forest.TreeAt fingerprint holds ↔ holds tree.content := by
  obtain ⟨id, found⟩ := List.getElem?_of_mem member
  refine ⟨?_, fun holding => ⟨id, tree, found, named, holding⟩⟩
  rintro ⟨other, again, there, alsoNamed, holding⟩
  have first := fingerprint_at.mpr ⟨tree, found, named⟩
  have second := fingerprint_at.mpr ⟨again, there, alsoNamed⟩
  have bound := (List.getElem?_eq_some_iff.mp first).1
  cases (List.getElem?_inj bound links.fingerprints_nodup).mp (first.trans second.symm)
  rw [found] at there
  cases there
  exact holding

theorem treeAt_modifyTree {id : TreeId} {change : SearchTree → SearchTree} {gained : Prop}
    (kept : ∀ tree, (change tree).fingerprint = tree.fingerprint)
    (here : forest.fingerprints[id]? = some fingerprint)
    (effect : ∀ tree, holds (change tree).content ↔ holds tree.content ∨ gained)
    (other : Fingerprint) :
    (forest.modifyTree id change).TreeAt other holds ↔
      forest.TreeAt other holds ∨ (other = fingerprint ∧ gained) := by
  obtain ⟨old, was, named⟩ := fingerprint_at.mp here
  have found : ∀ number, (forest.modifyTree id change).trees[number]? =
      if id = number then forest.trees[number]?.map change else forest.trees[number]? :=
    fun number => getElem?_modify_eq_ite
  constructor
  · rintro ⟨number, tree, there, rfl, holding⟩
    rw [found] at there
    split at there
    · rename_i equal
      subst equal
      rw [was] at there
      cases there
      -- The changed tree holds it already, or has gained it.
      rcases (effect old).mp holding with before | new
      · exact Or.inl ⟨id, old, was, (kept old).symm, before⟩
      · exact Or.inr ⟨(kept old).trans named, new⟩
    · exact Or.inl ⟨number, tree, there, rfl, holding⟩
  · rintro (⟨number, tree, there, rfl, holding⟩ | ⟨rfl, new⟩)
    · by_cases equal : id = number
      · subst equal
        exact ⟨id, change tree, by simp [found, there], kept tree, (effect tree).mpr (Or.inl holding)⟩
      · exact ⟨number, tree, by simp [found, equal, there], rfl, holding⟩
    · exact ⟨id, change old, by simp [found, was], (kept old).trans named, (effect old).mpr (Or.inr new)⟩

end

section
variable {Pattern : Type} {forest : Forest}

theorem Linked.bears_step_iff (links : Linked forest) {id : StepId} {step : Step} {place : Place}
    (here : forest.At (.step id) place) (found : forest.steps[id]? = some step)
    (name : PatternId → Option Pattern) (mark : StepMark Pattern) :
    forest.Bears name (.step place mark) ↔ step.content.Carries name mark := by
  have only : forest.StepAt place (·.Carries name mark) ↔ step.content.Carries name mark :=
    links.stepAt_iff here found
  exact only

theorem Linked.bears_tree_iff (links : Linked forest) {tree : SearchTree} (member : tree ∈ forest.trees)
    (name : PatternId → Option Pattern) (mark : TreeMark Pattern) :
    forest.Bears name (.tree tree.fingerprint mark) ↔ tree.content.Carries name mark := by
  have only : forest.TreeAt tree.fingerprint (·.Carries name mark) ↔ tree.content.Carries name mark :=
    links.treeAt_iff member rfl
  exact only

end
end Forest
end PlanGraph
