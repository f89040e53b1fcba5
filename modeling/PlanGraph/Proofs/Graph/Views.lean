import Mathlib.Data.Set.Defs
import PlanGraph.Proofs.Graph.Marks
import PlanGraph.Graph.Basic

/-! What a graph shows apart from its numbers: the contents of the step at every place and of the tree of
every fingerprint, with pattern terms in place of pattern numbers. -/

set_option autoImplicit false
namespace PlanGraph

def StepContent.map {Patterns Others : Type} (change : Patterns → Others)
    (content : StepContent Patterns) : StepContent Others :=
  ⟨content.types, change content.patterns, content.check, content.cycleStarts⟩

def TreeContent.map {Patterns Others : Type} (change : Patterns → Others)
    (content : TreeContent Patterns) : TreeContent Others :=
  ⟨content.fromTypes, content.seeds, content.length, content.cycles, change content.patterns⟩

namespace Graph

def terms (graph : Graph) (ids : OrderedSet PatternId) : Set TriplePattern :=
  { pattern | ∃ id, id ∈ ids ∧ graph.pattern? id = some pattern }

def viewStep (graph : Graph) (step : Step) : StepContent (Set TriplePattern) :=
  step.content.map graph.terms

def viewTree (graph : Graph) (tree : SearchTree) : TreeContent (Set TriplePattern) :=
  tree.content.map graph.terms

def StepAt (graph : Graph) (place : Place) (step : Step) : Prop :=
  ∃ id, graph.forest.At (.step id) place ∧ graph.forest.steps[id]? = some step

def ShowsStep (graph : Graph) (place : Place) (view : StepContent (Set TriplePattern)) : Prop :=
  ∃ step, graph.StepAt place step ∧ graph.viewStep step = view

def ShowsTree (graph : Graph) (fingerprint : Fingerprint) (view : TreeContent (Set TriplePattern)) :
    Prop :=
  ∃ tree ∈ graph.forest.trees, tree.fingerprint = fingerprint ∧ graph.viewTree tree = view

/-- From the tree of the fingerprint the word leads to one step, which shows the view. -/
def Reaches (graph : Graph) (fingerprint : Fingerprint) (word : List StepLabel)
    (view : StepContent (Set TriplePattern)) : Prop :=
  ∃ (id : TreeId) (tree : SearchTree) (number : StepId) (step : Step),
    graph.forest.trees[id]? = some tree ∧ tree.fingerprint = fingerprint ∧
      graph.forest.follow (.tree id) word = [.step number] ∧
      graph.forest.steps[number]? = some step ∧ graph.viewStep step = view

theorem reaches_iff {graph : Graph} (links : graph.forest.Linked) {fingerprint : Fingerprint}
    {word : List StepLabel} {view : StepContent (Set TriplePattern)} :
    graph.Reaches fingerprint word view ↔ graph.ShowsStep ⟨fingerprint, word⟩ view := by
  constructor
  · rintro ⟨id, tree, number, step, planted, named, reached, found, same⟩
    have root : graph.forest.At (.tree id) (.root fingerprint) :=
      .tree (Forest.fingerprint_at.mpr ⟨tree, planted, named⟩)
    have member : ChainNode.step number ∈ graph.forest.follow (.tree id) word := by simp [reached]
    exact ⟨step, ⟨number, (links.mem_follow root).mp member, found⟩, same⟩
  · rintro ⟨step, ⟨number, here, found⟩, same⟩
    have here : graph.forest.At (.step number) ((Place.root fingerprint).along word) := here
    -- Above the place there is a node at its root, and that can only be a tree.
    obtain ⟨upper, root⟩ := Stands.above here
    generalize rooted : Place.root fingerprint = goal at root
    cases root with
    | step => exact absurd rooted (Place.root_ne_below _ _ _)
    | @tree id other planted =>
      obtain ⟨tree, there, rfl⟩ := Forest.fingerprint_at.mp planted
      rw [rooted] at here
      cases rooted
      exact ⟨id, tree, number, step, there, rfl, links.follow_eq_singleton (.tree planted) here,
        found, same⟩

/-- The forest fits together, and steps serve registered patterns only. -/
structure Sound (graph : Graph) : Prop where
  links : graph.forest.Linked
  named : ∀ step ∈ graph.forest.steps, ∀ id, id ∈ step.patterns →
    ∃ pattern, graph.pattern? id = some pattern

structure Alike (first second : Graph) : Prop where
  steps : ∀ place view, first.ShowsStep place view ↔ second.ShowsStep place view
  trees : ∀ fingerprint view, first.ShowsTree fingerprint view ↔ second.ShowsTree fingerprint view
  cycles : first.cycles = second.cycles

namespace Alike
variable {first second : Graph}

theorem symm (alike : Alike first second) : Alike second first :=
  ⟨fun place view => (alike.steps place view).symm,
    fun fingerprint view => (alike.trees fingerprint view).symm, alike.cycles.symm⟩

theorem counterpart (alike : Alike first second) {place : Place} {step : Step}
    (here : first.StepAt place step) :
    ∃ other, second.StepAt place other ∧ second.viewStep other = first.viewStep step :=
  (alike.steps place _).mp ⟨step, here, rfl⟩

theorem tree_counterpart (alike : Alike first second) {tree : SearchTree}
    (member : tree ∈ first.forest.trees) : ∃ other ∈ second.forest.trees,
      other.fingerprint = tree.fingerprint ∧ second.viewTree other = first.viewTree tree :=
  (alike.trees _ _).mp ⟨tree, member, rfl, rfl⟩

end Alike

section
variable {graph : Graph} {place : Place} {step : Step}

theorem Sound.exists_place (sound : graph.Sound) (member : step ∈ graph.forest.steps) :
    ∃ above : Place, graph.StepAt (above.below step.label) step := by
  obtain ⟨id, found⟩ := List.getElem?_of_mem member
  obtain ⟨above, _, here⟩ := sound.links.exists_at found
  exact ⟨above, id, here, found⟩

theorem StepAt.mem (here : graph.StepAt place step) : step ∈ graph.forest.steps := by
  obtain ⟨id, _, found⟩ := here
  exact List.mem_of_getElem? found

theorem StepAt.exists_below (here : graph.StepAt place step) :
    ∃ (above : Place) (label : StepLabel), place = above.below label := by
  obtain ⟨id, stands, _⟩ := here
  cases stands with
  | step => exact ⟨_, _, rfl⟩

theorem StepAt.parent {label : StepLabel} (here : graph.StepAt (place.below label) step) :
    graph.forest.At step.parent place ∧ step.label = label := by
  obtain ⟨id, stands, found⟩ := here
  generalize same : place.below label = goal at stands
  cases stands with
  | step key above =>
    obtain ⟨rfl, rfl⟩ := Place.below_inj.mp same
    obtain ⟨other, again, keyed⟩ := Forest.key_at.mp key
    rw [found, Option.some.injEq] at again
    cases again
    cases keyed
    exact ⟨above, rfl⟩

theorem Sound.mem_children_iff (sound : graph.Sound) {node : ChainNode}
    (here : graph.forest.At node place) {other : Step} :
    (∃ id ∈ graph.forest.childrenOf node, graph.forest.steps[id]? = some other) ↔
      ∃ label, graph.StepAt (place.below label) other := by
  constructor
  · rintro ⟨id, below, found⟩
    obtain ⟨label, key⟩ := sound.links.mem_childrenOf.mp below
    exact ⟨label, id, .step key here, found⟩
  · rintro ⟨label, id, stands, found⟩
    obtain ⟨above, same⟩ := StepAt.parent ⟨id, stands, found⟩
    have key : graph.forest.keys[id]? = some (other.parent, label) :=
      Forest.key_at.mpr ⟨other, found, by rw [Step.key, same]⟩
    rw [sound.links.node_unique above here] at key
    exact ⟨id, sound.links.mem_childrenOf.mpr ⟨label, key⟩, found⟩

end

section
variable {first second : Graph}

theorem viewStep_eq {step other : Step} (same : ∀ mark : StepMark TriplePattern,
      other.content.Carries second.pattern? mark ↔ step.content.Carries first.pattern? mark) :
    second.viewStep other = first.viewStep step := by
  refine StepContent.ext ?_ ?_ ?_ ?_
  · exact OrderedSet.ext fun type => same (.type type)
  · exact Set.ext fun pattern => same (.pattern pattern)
  · exact Option.ext fun value => same (.check value)
  · exact OrderedSet.ext fun cycle => same (.start cycle)

theorem viewTree_eq {tree other : SearchTree} (length : other.length = tree.length)
    (same : ∀ mark : TreeMark TriplePattern,
      other.content.Carries second.pattern? mark ↔ tree.content.Carries first.pattern? mark) :
    second.viewTree other = first.viewTree tree := by
  refine TreeContent.ext ?_ ?_ length ?_ ?_
  · exact OrderedSet.ext fun type => same (.source type)
  · exact OrderedSet.ext fun seed => same (.seed seed)
  · exact OrderedSet.ext fun cycle => same (.cycle cycle)
  · exact Set.ext fun pattern => same (.pattern pattern)

variable (marks : ∀ mark : Mark TriplePattern,
  second.forest.Bears second.pattern? mark ↔ first.forest.Bears first.pattern? mark)
include marks

theorem showsStep_of_marks (sound : first.Sound) (alsoSound : second.Sound) {place : Place}
    {view : StepContent (Set TriplePattern)} (shows_it : first.ShowsStep place view) :
    second.ShowsStep place view := by
  obtain ⟨step, ⟨id, here, found⟩, rfl⟩ := shows_it
  -- The mark `present` finds the counterpart, and the other marks compare the contents.
  obtain ⟨otherId, other, there, alsoFound, _⟩ :=
    (marks (.step place .present)).mpr ⟨id, step, here, found, trivial⟩
  refine ⟨other, ⟨otherId, there, alsoFound⟩, viewStep_eq fun mark => ?_⟩
  have only : first.forest.StepAt place (·.Carries first.pattern? mark) ↔ _ :=
    sound.links.stepAt_iff here found
  have alsoOnly : second.forest.StepAt place (·.Carries second.pattern? mark) ↔ _ :=
    alsoSound.links.stepAt_iff there alsoFound
  exact alsoOnly.symm.trans ((marks (.step place mark)).trans only)

theorem showsTree_of_marks (sound : first.Sound) (alsoSound : second.Sound)
    (lengths : ∀ tree ∈ first.forest.trees, ∀ other ∈ second.forest.trees,
      other.fingerprint = tree.fingerprint → other.length = tree.length)
    {fingerprint : Fingerprint} {view : TreeContent (Set TriplePattern)}
    (shows_it : first.ShowsTree fingerprint view) : second.ShowsTree fingerprint view := by
  obtain ⟨tree, member, named, rfl⟩ := shows_it
  obtain ⟨id, found⟩ := List.getElem?_of_mem member
  obtain ⟨_, other, there, alsoNamed, _⟩ :=
    (marks (.tree fingerprint .present)).mpr ⟨id, tree, found, named, trivial⟩
  have inside := List.mem_of_getElem? there
  have length := lengths tree member other inside (alsoNamed.trans named.symm)
  refine ⟨other, inside, alsoNamed, viewTree_eq length fun mark => ?_⟩
  have only : first.forest.TreeAt fingerprint (·.Carries first.pattern? mark) ↔ _ :=
    sound.links.treeAt_iff member named
  have alsoOnly : second.forest.TreeAt fingerprint (·.Carries second.pattern? mark) ↔ _ :=
    alsoSound.links.treeAt_iff inside alsoNamed
  exact alsoOnly.symm.trans ((marks (.tree fingerprint mark)).trans only)

end
end Graph
end PlanGraph
