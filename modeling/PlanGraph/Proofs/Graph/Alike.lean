import PlanGraph.Proofs.Graph.Compilation
import PlanGraph.Proofs.Graph.Views

/-! Graphs that show the same compile to graphs that show the same. All that propagation and finishing
ask of a step can be read off the places around it. -/

set_option autoImplicit false
namespace PlanGraph.Graph

section
variable {graph : Graph} {place : Place} {label : StepLabel} {step : Step}

def NearTerm (graph : Graph) (step : Step) (pattern : TriplePattern) : Prop :=
  ∃ id, id ∈ graph.forest.nearPatterns step ∧ graph.pattern? id = some pattern

theorem Sound.nearTerm_iff (sound : graph.Sound) (here : graph.StepAt (place.below label) step)
    {pattern : TriplePattern} : graph.NearTerm step pattern ↔
      ∃ other view, graph.ShowsStep (place.below other) view ∧ pattern ∈ view.patterns := by
  have siblings {other : Step} : _ ↔ ∃ label, graph.StepAt (place.below label) other :=
    sound.mem_children_iff here.parent.1
  constructor
  · rintro ⟨id, near, known⟩
    obtain ⟨sibling, below, other, found, serves⟩ := Forest.mem_nearPatterns.mp near
    obtain ⟨otherLabel, there⟩ := siblings.mp ⟨sibling, below, found⟩
    exact ⟨otherLabel, _, ⟨other, there, rfl⟩, id, serves, known⟩
  · rintro ⟨otherLabel, _, ⟨other, there, rfl⟩, id, serves, known⟩
    obtain ⟨sibling, below, found⟩ := siblings.mpr ⟨otherLabel, there⟩
    exact ⟨id, Forest.mem_nearPatterns.mpr ⟨sibling, below, other, found, serves⟩, known⟩

theorem Sound.isEligible_iff (sound : graph.Sound) {roots : Roots} :
    graph.isEligible roots step = true ↔ (∃ pattern, graph.NearTerm step pattern) ∧
      ∀ pattern, graph.NearTerm step pattern → roots.contains pattern.subject = true := by
  -- Every number near a step names a pattern, so numbers can be exchanged for terms.
  have named (id : PatternId) (near : id ∈ graph.forest.nearPatterns step) :
      ∃ pattern, graph.pattern? id = some pattern := by
    obtain ⟨_, _, other, found, serves⟩ := Forest.mem_nearPatterns.mp near
    exact sound.named other (List.mem_of_getElem? found) id serves
  unfold isEligible
  simp only [Bool.and_eq_true, Bool.not_eq_true', List.all_eq_true, OrderedSet.isEmpty_eq_false_iff]
  constructor
  · rintro ⟨⟨id, near⟩, rooted⟩
    obtain ⟨pattern, known⟩ := named id near
    refine ⟨⟨pattern, id, near, known⟩, ?_⟩
    rintro other ⟨otherId, alsoNear, alsoKnown⟩
    simpa [alsoKnown] using rooted otherId alsoNear
  · rintro ⟨⟨pattern, id, near, _⟩, rooted⟩
    refine ⟨⟨id, near⟩, fun otherId alsoNear => ?_⟩
    obtain ⟨other, known⟩ := named otherId alsoNear
    simpa [known] using rooted other ⟨otherId, alsoNear, known⟩

theorem mem_assertedNear {type : Iri} : type ∈ graph.assertedNear step ↔
    (∃ pattern, graph.NearTerm step pattern ∧ pattern.assertedType? = some type) ∧
      type ∈ step.types := by
  unfold assertedNear
  rw [List.mem_filter, OrderedSet.contains_iff, List.mem_filterMap]
  refine and_congr_left fun _ => ⟨?_, ?_⟩
  · rintro ⟨id, near, asserts⟩
    obtain ⟨pattern, known, asserts⟩ := Option.bind_eq_some_iff.mp asserts
    exact ⟨pattern, ⟨id, near, known⟩, asserts⟩
  · rintro ⟨pattern, ⟨id, near, known⟩, asserts⟩
    exact ⟨id, near, Option.bind_eq_some_iff.mpr ⟨pattern, known, asserts⟩⟩

theorem mem_subjectIris {iri : Iri} : iri ∈ subjectIris graph.patterns step ↔
    ∃ pattern ∈ (graph.viewStep step).patterns, pattern.subject.iri? = some iri := by
  unfold subjectIris
  rw [List.mem_filterMap]
  constructor
  · rintro ⟨id, serves, found⟩
    obtain ⟨node, there, subject⟩ := Option.bind_eq_some_iff.mp found
    exact ⟨node.pattern, ⟨id, serves, by simp [pattern?, there]⟩, subject⟩
  · rintro ⟨pattern, ⟨id, serves, known⟩, subject⟩
    obtain ⟨node, there, rfl⟩ := Option.map_eq_some_iff.mp known
    exact ⟨id, serves, Option.bind_eq_some_iff.mpr ⟨node, there, subject⟩⟩

theorem isPromoted_iff (here : graph.StepAt (place.below label) step) : graph.isPromoted step ↔
    place.word = [] ∧ ∃ pattern ∈ (graph.viewStep step).patterns, ∃ iri,
      pattern.subject.iri? = some iri := by
  -- One label leads to a step exactly if its parent is a tree.
  have top : isBelowTree step = true ↔ place.word = [] := by
    have parent := here.parent.1
    unfold isBelowTree
    cases above : step.parent with
    | tree id =>
      rw [above] at parent
      cases parent with
      | tree => simp [Place.root]
    | step id =>
      rw [above] at parent
      cases parent with
      | step => simp [Place.below]
  unfold isPromoted
  rw [top]
  refine and_congr_right fun _ => ⟨?_, ?_⟩
  · intro nonempty
    obtain ⟨iri, member⟩ := List.exists_mem_of_ne_nil _ nonempty
    obtain ⟨pattern, serves, subject⟩ := mem_subjectIris.mp member
    exact ⟨pattern, serves, iri, subject⟩
  · rintro ⟨pattern, serves, iri, subject⟩
    exact List.ne_nil_of_mem (mem_subjectIris.mpr ⟨pattern, serves, subject⟩)

theorem Sound.mem_gainedSeeds (sound : graph.Sound) {tree : SearchTree}
    (member : tree ∈ graph.forest.trees) {seed : Iri} : seed ∈ graph.gainedSeeds tree ↔
      ∃ label view, graph.ShowsStep ((Place.root tree.fingerprint).below label) view ∧
        ∃ pattern ∈ view.patterns, pattern.subject.iri? = some seed := by
  obtain ⟨id, found⟩ := List.getElem?_of_mem member
  have here : graph.forest.At (.tree id) (.root tree.fingerprint) :=
    .tree (Forest.fingerprint_at.mpr ⟨tree, found, rfl⟩)
  have children : tree.children = graph.forest.childrenOf (.tree id) := by
    simp [Forest.childrenOf, found]
  have below {other : Step} : _ ↔ ∃ label, graph.StepAt (Place.below _ label) other :=
    sound.mem_children_iff here
  unfold gainedSeeds
  rw [List.mem_flatMap, children]
  constructor
  · rintro ⟨child, member, gained⟩
    cases there : graph.forest.steps[child]? with
    | none => simp [there] at gained
    | some step =>
      obtain ⟨label, stands⟩ := below.mp ⟨child, member, there⟩
      rw [there] at gained
      exact ⟨label, _, ⟨step, stands, rfl⟩, mem_subjectIris.mp gained⟩
  · rintro ⟨label, _, ⟨step, stands, rfl⟩, gained⟩
    obtain ⟨child, member, there⟩ := below.mpr ⟨label, stands⟩
    refine ⟨child, member, ?_⟩
    rw [there]
    exact mem_subjectIris.mpr gained

end

/-! Steps at the same place of graphs that show the same. -/

/-- The steps stand at the same place and show the same. -/
structure Counterparts (first second : Graph) (step other : Step) : Prop where
  place : ∃ (above : Place) (label : StepLabel),
    first.StepAt (above.below label) step ∧ second.StepAt (above.below label) other
  same : second.viewStep other = first.viewStep step

namespace Counterparts
variable {first second : Graph} {hierarchy : Hierarchy} {roots : Roots} {step other : Step}

theorem types (pair : Counterparts first second step other) : other.types = step.types :=
  congrArg StepContent.types pair.same

theorem nearTerm_iff (pair : Counterparts first second step other) (alike : Alike first second)
    (sound : first.Sound) (alsoSound : second.Sound) {pattern : TriplePattern} :
    second.NearTerm other pattern ↔ first.NearTerm step pattern := by
  obtain ⟨above, label, here, there⟩ := pair.place
  simp only [sound.nearTerm_iff here, alsoSound.nearTerm_iff there, alike.steps]

theorem isEligible_iff (pair : Counterparts first second step other) (alike : Alike first second)
    (sound : first.Sound) (alsoSound : second.Sound) :
    second.isEligible roots other = true ↔ first.isEligible roots step = true := by
  simp only [sound.isEligible_iff, alsoSound.isEligible_iff, pair.nearTerm_iff alike sound alsoSound]

theorem mem_assertedNear_iff (pair : Counterparts first second step other)
    (alike : Alike first second) (sound : first.Sound) (alsoSound : second.Sound) {type : Iri} :
    type ∈ second.assertedNear other ↔ type ∈ first.assertedNear step := by
  simp only [mem_assertedNear, pair.nearTerm_iff alike sound alsoSound, pair.types]

theorem mem_newTypes_iff (pair : Counterparts first second step other) (alike : Alike first second)
    (sound : first.Sound) (alsoSound : second.Sound) {type : Iri} :
    type ∈ second.newTypes hierarchy other ↔ type ∈ first.newTypes hierarchy step := by
  simp only [mem_newTypes, pair.mem_assertedNear_iff alike sound alsoSound, pair.types]

theorem anchors_iff (pair : Counterparts first second step other) (alike : Alike first second)
    (sound : first.Sound) (alsoSound : second.Sound) {id : CycleId} :
    second.Anchors hierarchy roots other id ↔ first.Anchors hierarchy roots step id := by
  simp only [Anchors, pair.isEligible_iff alike sound alsoSound, alike.cycles,
    pair.mem_newTypes_iff alike sound alsoSound]

theorem isPromoted_iff (pair : Counterparts first second step other) :
    second.isPromoted other ↔ first.isPromoted step := by
  obtain ⟨above, label, here, there⟩ := pair.place
  rw [Graph.isPromoted_iff here, Graph.isPromoted_iff there, pair.same]

end Counterparts

section
variable {first second : Graph} {hierarchy : Hierarchy} {roots : Roots}

theorem Alike.exists_counterpart (alike : Alike first second) (sound : first.Sound) {step : Step}
    (member : step ∈ first.forest.steps) :
    ∃ other ∈ second.forest.steps, Counterparts first second step other := by
  obtain ⟨above, here⟩ := sound.exists_place member
  obtain ⟨other, there, same⟩ := alike.counterpart here
  exact ⟨other, there.mem, ⟨above, _, here, there⟩, same⟩

theorem Alike.keeps (alike : Alike first second) (sound : first.Sound)
    (alsoSound : second.Sound) {id : CycleId} (kept : id ∈ first.keptCycles hierarchy roots) :
    id ∈ second.keptCycles hierarchy roots := by
  obtain ⟨step, member, anchors⟩ := mem_keptCycles.mp kept
  obtain ⟨other, there, pair⟩ := alike.exists_counterpart sound member
  exact mem_keptCycles.mpr ⟨other, there, (pair.anchors_iff alike sound alsoSound).mpr anchors⟩

theorem Alike.keeps_iff (alike : Alike first second) (sound : first.Sound)
    (alsoSound : second.Sound) {id : CycleId} :
    id ∈ second.keptCycles hierarchy roots ↔ id ∈ first.keptCycles hierarchy roots :=
  ⟨alike.symm.keeps alsoSound sound, alike.keeps sound alsoSound⟩

theorem Alike.known (alike : Alike first second) (sound : first.Sound) (alsoSound : second.Sound)
    (known : second.Known hierarchy roots) : first.Known hierarchy roots where
  asserted := fun step member eligible type asserted => by
    obtain ⟨other, there, pair⟩ := alike.exists_counterpart sound member
    exact known.asserted other there ((pair.isEligible_iff alike sound alsoSound).mpr eligible) type
      ((pair.mem_assertedNear_iff alike sound alsoSound).mpr asserted)
  cycles := by
    unfold CyclesKnown
    rw [alike.cycles]
    exact known.cycles
  sources := fun tree member type source => by
    obtain ⟨other, there, _, same⟩ := alike.tree_counterpart member
    have sources : other.fromTypes = tree.fromTypes := congrArg TreeContent.fromTypes same
    exact known.sources other there type (sources ▸ source)

theorem sameLinks_compiled (graph : Graph) :
    Forest.SameLinks graph.forest (graph.compiled hierarchy roots).forest := by
  have key (step : Step) : (graph.compiledStep hierarchy roots step).key = step.key := by
    have kept := congrArg Step.key (graph.compiledStep_others hierarchy roots step)
    exact kept
  have children (step : Step) : (graph.compiledStep hierarchy roots step).children = step.children := by
    have kept := congrArg Step.children (graph.compiledStep_others hierarchy roots step)
    exact kept
  have mapped : Forest.SameLinks graph.forest
      ⟨graph.forest.trees.map (graph.compiledTree hierarchy roots),
        graph.forest.steps.map (graph.compiledStep hierarchy roots)⟩ :=
    graph.forest.sameLinks_map (fun _ => rfl) (fun _ => rfl) key children
  rwa [← compiled_trees, ← compiled_steps] at mapped

theorem stepAt_compiled {graph : Graph} {place : Place} {step : Step} :
    (graph.compiled hierarchy roots).StepAt place step ↔
      ∃ before, graph.StepAt place before ∧ graph.compiledStep hierarchy roots before = step := by
  have same : Forest.SameLinks graph.forest (graph.compiled hierarchy roots).forest :=
    graph.sameLinks_compiled
  unfold StepAt
  simp only [same.at_iff, compiled_steps, List.getElem?_map, Option.map_eq_some_iff]
  constructor
  · rintro ⟨id, stands, before, found, changed⟩
    exact ⟨before, ⟨id, stands, found⟩, changed⟩
  · rintro ⟨before, ⟨id, stands, found⟩, changed⟩
    exact ⟨id, stands, before, found, changed⟩

theorem Counterparts.compiled {step other : Step} (pair : Counterparts first second step other)
    (alike : Alike first second) (sound : first.Sound) (alsoSound : second.Sound) :
    (second.compiled hierarchy roots).viewStep (second.compiledStep hierarchy roots other) =
      (first.compiled hierarchy roots).viewStep (first.compiledStep hierarchy roots step) := by
  obtain ⟨above, label, here, there⟩ := pair.place
  have starts : other.cycleStarts = step.cycleStarts := congrArg StepContent.cycleStarts pair.same
  -- Every field of a compiled step is told by what the graph shows at its place.
  refine StepContent.ext ?_ ?_ ?_ ?_
  · refine OrderedSet.ext fun type => ?_
    refine mem_types_compiledStep.trans (Iff.trans ?_ mem_types_compiledStep.symm)
    simp only [pair.types, pair.isEligible_iff alike sound alsoSound,
      pair.mem_assertedNear_iff alike sound alsoSound]
  · have terms : second.terms other.patterns = first.terms step.patterns :=
      congrArg StepContent.patterns pair.same
    change second.terms (second.compiledStep hierarchy roots other).patterns =
      first.terms (first.compiledStep hierarchy roots step).patterns
    rw [compiledStep_patterns, compiledStep_patterns, terms]
  · have check : other.check = step.check := congrArg StepContent.check pair.same
    change (second.compiledStep hierarchy roots other).check = _
    rw [compiledStep_check, check]
    exact (first.compiledStep_check hierarchy roots step).symm
  · refine OrderedSet.ext fun id => ?_
    refine (mem_starts_compiledStep there.mem).trans
      (Iff.trans ?_ (mem_starts_compiledStep here.mem).symm)
    simp only [pair.isPromoted_iff, pair.anchors_iff alike sound alsoSound, starts,
      alike.keeps_iff sound alsoSound]

theorem Alike.compiled_tree (alike : Alike first second) (sound : first.Sound)
    (alsoSound : second.Sound) {tree other : SearchTree} (member : tree ∈ first.forest.trees)
    (there : other ∈ second.forest.trees) (named : other.fingerprint = tree.fingerprint)
    (same : second.viewTree other = first.viewTree tree) :
    (second.compiled hierarchy roots).viewTree (second.compiledTree hierarchy roots other) =
      (first.compiled hierarchy roots).viewTree (first.compiledTree hierarchy roots tree) := by
  have seeds : other.seeds = tree.seeds := congrArg TreeContent.seeds same
  have cycles : other.cycles = tree.cycles := congrArg TreeContent.cycles same
  have length : other.length = tree.length := congrArg TreeContent.length same
  have terms : second.terms other.patterns = first.terms tree.patterns :=
    congrArg TreeContent.patterns same
  refine TreeContent.ext ?_ ?_ ?_ ?_ ?_
  · exact congrArg (fun content => hierarchy.specific (TreeContent.fromTypes content)) same
  · refine OrderedSet.ext fun seed => ?_
    refine mem_seeds_compiledTree.trans (Iff.trans ?_ mem_seeds_compiledTree.symm)
    rw [sound.mem_gainedSeeds member, alsoSound.mem_gainedSeeds there, named, seeds]
    simp only [alike.steps]
  · exact length
  · refine OrderedSet.ext fun id => ?_
    refine mem_cycles_compiledTree.trans (Iff.trans ?_ mem_cycles_compiledTree.symm)
    rw [cycles, alike.keeps_iff sound alsoSound]
  · exact terms

theorem Alike.shows_compiled_step (alike : Alike first second) (sound : first.Sound)
    (alsoSound : second.Sound) {place : Place} {view : StepContent (Set TriplePattern)}
    (shows_it : (first.compiled hierarchy roots).ShowsStep place view) :
    (second.compiled hierarchy roots).ShowsStep place view := by
  obtain ⟨_, stands, rfl⟩ := shows_it
  obtain ⟨step, here, rfl⟩ := stepAt_compiled.mp stands
  obtain ⟨other, there, same⟩ := alike.counterpart here
  obtain ⟨above, label, rfl⟩ := here.exists_below
  have pair : Counterparts first second step other := ⟨⟨above, label, here, there⟩, same⟩
  exact ⟨_, stepAt_compiled.mpr ⟨other, there, rfl⟩, pair.compiled alike sound alsoSound⟩

theorem Alike.shows_compiled_tree (alike : Alike first second) (sound : first.Sound)
    (alsoSound : second.Sound) {fingerprint : Fingerprint} {view : TreeContent (Set TriplePattern)}
    (shows_it : (first.compiled hierarchy roots).ShowsTree fingerprint view) :
    (second.compiled hierarchy roots).ShowsTree fingerprint view := by
  obtain ⟨_, here, named, rfl⟩ := shows_it
  rw [compiled_trees] at here
  obtain ⟨tree, member, rfl⟩ := List.mem_map.mp here
  obtain ⟨other, there, also, same⟩ := alike.tree_counterpart member
  refine ⟨second.compiledTree hierarchy roots other, ?_, also.trans named,
    alike.compiled_tree sound alsoSound member there also same⟩
  rw [compiled_trees]
  exact List.mem_map_of_mem there

/-- Compilation does not see numbers. -/
theorem Alike.compiled (alike : Alike first second) (sound : first.Sound) (alsoSound : second.Sound) :
    Alike (first.compiled hierarchy roots) (second.compiled hierarchy roots) where
  steps := fun _ _ => ⟨alike.shows_compiled_step sound alsoSound,
    alike.symm.shows_compiled_step alsoSound sound⟩
  trees := fun _ _ => ⟨alike.shows_compiled_tree sound alsoSound,
    alike.symm.shows_compiled_tree alsoSound sound⟩
  cycles := by
    refine OrderedMap.ext fun id => Option.ext fun cycle => ?_
    refine find?_spread.trans (Iff.trans ?_ find?_spread.symm)
    have kept : id ∈ second.keptCycles hierarchy roots ↔ id ∈ first.keptCycles hierarchy roots :=
      alike.keeps_iff sound alsoSound
    rw [← mem_keptCycles, ← mem_keptCycles, alike.cycles, kept]

end
end PlanGraph.Graph
