import PlanGraph.Proofs.Graph.Compilation
import PlanGraph.Proofs.Graph.Extension
import PlanGraph.Proofs.Graph.Siblings
import PlanGraph.Proofs.Graph.Trees

/-! Separation. Paths from seeds of a new fingerprint make trees and steps of their own. An entry that
only uses such seeds therefore leaves the trees and steps of the entries before it alone, through
building, propagation and finishing. All it can do to them is to keep cycles alive, because a cycle stays
in the graph if any step at all anchors it. -/

set_option autoImplicit false
namespace PlanGraph

theorem prefix_modify {α : Type} {start list : List α} {place : Nat} (short : start <+: list)
    (beyond : start.length ≤ place) (change : α → α) : start <+: list.modify place change := by
  refine List.prefix_iff_getElem?.mpr fun other bound => ?_
  have differs : place ≠ other := Nat.ne_of_gt (Nat.lt_of_lt_of_le bound beyond)
  rw [getElem?_modify_eq_ite, if_neg differs]
  exact List.prefix_iff_getElem?.mp short other bound

theorem getElem?_of_prefix {α : Type} {start list : List α} {place : Nat} (short : start <+: list)
    (inside : place < start.length) : list[place]? = start[place]? := by
  rw [List.getElem?_eq_getElem inside]
  exact List.prefix_iff_getElem?.mp short place inside

theorem KeepsNumbers.map {α β : Type} {extension : β → β → Prop} {start list : List α}
    {first second : α → β} (short : start <+: list)
    (larger : ∀ value ∈ start, extension (first value) (second value)) :
    KeepsNumbers extension (start.map first) (list.map second) := by
  intro number result found
  rw [List.getElem?_map] at found
  obtain ⟨value, there, rfl⟩ := Option.map_eq_some_iff.mp found
  have inside := (List.getElem?_eq_some_iff.mp there).1
  refine ⟨second value, ?_, larger value (List.mem_of_getElem? there)⟩
  rw [List.getElem?_map, getElem?_of_prefix short inside, there]
  rfl

/-! Nodes outside a part of a forest. -/

namespace Forest

/-- The first trees and steps of the forest are those of the part. -/
structure PartOf (part forest : Forest) : Prop where
  trees : part.trees <+: forest.trees
  steps : part.steps <+: forest.steps

namespace PartOf
variable {part forest : Forest} {node : ChainNode}

theorem refl (forest : Forest) : forest.PartOf forest := ⟨List.prefix_rfl, List.prefix_rfl⟩

theorem fingerprint_at (inside : part.PartOf forest) {id : TreeId} (known : part.Has (.tree id)) :
    forest.fingerprints[id]? = part.fingerprints[id]? :=
  getElem?_of_prefix (inside.trees.map _) (by simpa [fingerprints, Has] using known)

theorem key_at (inside : part.PartOf forest) {id : StepId} (known : part.Has (.step id)) :
    forest.keys[id]? = part.keys[id]? :=
  getElem?_of_prefix (inside.steps.map _) (by simpa [keys, Has] using known)

theorem childrenOf (inside : part.PartOf forest) (known : part.Has node) :
    forest.childrenOf node = part.childrenOf node := by
  cases node with
  | tree id => simp only [Forest.childrenOf, getElem?_of_prefix inside.trees known]
  | step id => simp only [Forest.childrenOf, getElem?_of_prefix inside.steps known]

/-! Changes outside a part. -/

theorem modifyTree (inside : part.PartOf forest) {id : TreeId} (new : ¬part.Has (.tree id))
    (change : SearchTree → SearchTree) : part.PartOf (forest.modifyTree id change) :=
  ⟨prefix_modify inside.trees (Nat.le_of_not_lt new) change, inside.steps⟩

theorem modifyStep (inside : part.PartOf forest) {id : StepId} (new : ¬part.Has (.step id))
    (change : Step → Step) : part.PartOf (forest.modifyStep id change) :=
  ⟨inside.trees, prefix_modify inside.steps (Nat.le_of_not_lt new) change⟩

theorem addChild (inside : part.PartOf forest) (new : ¬part.Has node) (child : StepId) :
    part.PartOf (forest.addChild node child) := by
  cases node with
  | tree id => exact inside.modifyTree new _
  | step id => exact inside.modifyStep new _

theorem addPattern (inside : part.PartOf forest) (new : ¬part.Has node) (pattern : PatternId) :
    part.PartOf (forest.addPattern node pattern) := by
  cases node with
  | tree id => exact inside.modifyTree new _
  | step id => exact inside.modifyStep new _

theorem requireCheck (inside : part.PartOf forest) (new : ¬part.Has node) :
    part.PartOf (forest.requireCheck node) := by
  cases node with
  | tree id => exact inside
  | step id => exact inside.modifyStep new _

theorem plant (inside : part.PartOf forest) (links : forest.Linked) {fingerprint : Fingerprint}
    (foreign : ¬fingerprint ∈ part.fingerprints) :
    part.PartOf (forest.plant fingerprint).1 ∧ ¬part.Has (.tree (forest.plant fingerprint).2) := by
  cases found : forest.treeWith? fingerprint with
  | some id =>
    rw [plant_of_some found]
    -- A tree that is found would be one of the part only with a fingerprint of the part.
    refine ⟨inside, fun known => foreign ?_⟩
    have there := links.treeWith?_eq_some.mp found
    rw [inside.fingerprint_at known] at there
    exact List.mem_of_getElem? there
  | none =>
    rw [plant_of_none found]
    exact ⟨⟨inside.trees.trans (List.prefix_append _ _), inside.steps⟩,
      Nat.not_lt_of_le inside.trees.length_le⟩

/-- Below a node outside the part, steps are outside, too: a step comes after its parent. -/
theorem grow (inside : part.PartOf forest) (partLinks : part.Linked) (links : forest.Linked)
    (new : ¬part.Has node) (label : StepLabel) :
    part.PartOf (forest.grow node label).1 ∧ ¬part.Has (.step (forest.grow node label).2) := by
  cases found : forest.child? node label with
  | some id =>
    rw [grow_of_some found]
    refine ⟨inside, fun known => new ?_⟩
    have key := links.child?_eq_some.mp found
    rw [inside.key_at known] at key
    have before := partLinks.ordered id _ key
    cases node with
    | tree number =>
      have bound : number < part.fingerprints.length := before
      rwa [length_fingerprints] at bound
    | step number => exact Nat.lt_trans before known
  | none =>
    rw [grow_of_none found]
    have appended : part.PartOf (forest.withStep (.grown node label)) :=
      ⟨inside.trees, inside.steps.trans (List.prefix_append _ _)⟩
    exact ⟨appended.addChild new _, Nat.not_lt_of_le inside.steps.length_le⟩

theorem descend (inside : part.PartOf forest) (partLinks : part.Linked) (links : forest.Linked)
    {place : Place} (here : forest.At node place) (new : ¬part.Has node)
    (word : List (StepLabel × Iri)) :
    part.PartOf (forest.descend node word).1 ∧ ¬part.Has (forest.descend node word).2 := by
  induction word generalizing forest node place with
  | nil => exact ⟨inside, new⟩
  | cons letter rest ih =>
    obtain ⟨label, type⟩ := letter
    have grown : Grown forest (place.below label) (forest.grow node label) := links.grow here
    obtain ⟨kept, outside⟩ := inside.grow partLinks links new label
    have same : SameLinks (forest.grow node label).1 ((forest.grow node label).1.modifyStep
        (forest.grow node label).2 (·.expect type)) :=
      sameLinks_modifyStep _ _ (fun _ => rfl) fun _ => rfl
    exact ih (kept.modifyStep outside _) (same.linked grown.links) (same.at_iff.mpr grown.here) outside

theorem takeIn (inside : part.PartOf forest) (partLinks : part.Linked) (links : forest.Linked)
    {inclusion : Inclusion} (foreign : ¬inclusion.fingerprint ∈ part.fingerprints) (id : PatternId) :
    part.PartOf (forest.takeIn id inclusion) := by
  have planted : Planted forest inclusion.fingerprint (forest.plant inclusion.fingerprint) := links.plant
  obtain ⟨kept, outside⟩ := inside.plant links foreign
  have same : SameLinks (forest.plant inclusion.fingerprint).1
      ((forest.plant inclusion.fingerprint).1.modifyTree (forest.plant inclusion.fingerprint).2
        (·.enter inclusion)) := sameLinks_modifyTree _ _ (fun _ => rfl) fun _ => rfl
  have root := same.at_iff.mpr (.tree planted.here)
  obtain ⟨followed, last⟩ := (kept.modifyTree outside (·.enter inclusion)).descend partLinks
    (same.linked planted.links) root outside inclusion.steps
  have attached := followed.addPattern last id
  by_cases checks : inclusion.Checks
  · have changed : forest.takeIn id inclusion = _ := if_pos checks
    rw [changed]
    exact attached.requireCheck last
  · have unchanged : forest.takeIn id inclusion = _ := if_neg checks
    rw [unchanged]
    exact attached

end PartOf

theorem partOf_ofInclusions (number : TriplePattern → PatternId) (taken more : List Inclusion)
    (foreign : ∀ inclusion ∈ more,
      ¬inclusion.fingerprint ∈ (ofInclusions number taken).fingerprints) :
    (ofInclusions number taken).PartOf (ofInclusions number (taken ++ more)) := by
  induction more using List.reverseRecOn with
  | nil =>
    rw [List.append_nil]
    exact .refl _
  | append_singleton earlier last ih =>
    have before := ih fun inclusion member => foreign inclusion (List.mem_append_left _ member)
    have whole : ofInclusions number (taken ++ (earlier ++ [last])) =
        (ofInclusions number (taken ++ earlier)).takeIn (number last.pattern) last := by
      simp [ofInclusions]
    rw [whole]
    exact before.takeIn (madeOf_ofInclusions _ _).links (madeOf_ofInclusions _ _).links
      (foreign last (by simp)) _

end Forest

/-! Graphs with an entry more. -/

/-- The larger graph holds the first one, with its patterns and its cycles, beside other nodes. -/
structure Graph.PartOf (graph larger : Graph) : Prop where
  forest : graph.forest.PartOf larger.forest
  patterns : ∀ id pattern, graph.pattern? id = some pattern → larger.pattern? id = some pattern
  cycles : ∀ id cycle, graph.cycles.find? id = some cycle → larger.cycles.find? id = some cycle

def Plan.withEntry (plan : Plan) (entry : PlanEntry) : Plan :=
  { plan with entries := plan.entries ++ [entry] }

/-- No included path of the entry has seeds like an included path of the plan. -/
def Plan.Separate (plan : Plan) (entry : PlanEntry) : Prop :=
  ∀ found ∈ entry.includedPaths, ∀ path ∈ plan.includedPaths,
    fingerprint found.1.seeds ≠ fingerprint path.seeds

instance (plan : Plan) (entry : PlanEntry) : Decidable (plan.Separate entry) :=
  inferInstanceAs (Decidable (∀ found ∈ entry.includedPaths, ∀ path ∈ plan.includedPaths,
    fingerprint found.1.seeds ≠ fingerprint path.seeds))

section
variable {plan : Plan} {hierarchy : Hierarchy} {graph larger : Graph} {entry : PlanEntry}

/-- The first request of a cycle decides, and the requests of the plan come first. -/
theorem Plan.Initial.find?_withEntry (initial : plan.Initial hierarchy graph)
    (later : (plan.withEntry entry).Initial hierarchy larger) {request : CycleRequest}
    (asked : request ∈ cycleRequests plan.entries) :
    larger.cycles.find? request.1 = graph.cycles.find? request.1 := by
  obtain ⟨steps, found⟩ := Option.isSome_iff_exists.mp
    (List.lookup_isSome_iff.mpr ⟨request, asked, beq_self_eq_true _⟩)
  rw [initial.cycles, later.cycles, withEntry, cycleRequests_append, List.lookup_append, found,
    Option.some_or]

theorem Plan.Initial.forest_withEntry (initial : plan.Initial hierarchy graph)
    (later : (plan.withEntry entry).Initial hierarchy larger) (separate : plan.Separate entry) :
    graph.forest.PartOf larger.forest := by
  -- The plan's own inclusions are the same for both graphs, under the same numbers of patterns.
  have described : inclusions plan.entries larger.cycles = inclusions plan.entries graph.cycles :=
    inclusions_congr fun request asked => by
      rw [OrderedMap.contains, OrderedMap.contains, initial.find?_withEntry later asked]
  have numbered : graph.forest = Forest.ofInclusions (numberOf (plan.withEntry entry).entries)
      (inclusions plan.entries graph.cycles) := by
    rw [initial.forest]
    exact (ofInclusions_congr fun inclusion member =>
      numberOf_append (pattern_of_mem_inclusions member)).symm
  have foreign : ∀ inclusion ∈ inclusions [entry] larger.cycles,
      ¬inclusion.fingerprint ∈ graph.forest.fingerprints := by
    intro inclusion member known
    rw [inclusions, List.flatMap_singleton] at member
    obtain ⟨found, included, rfl⟩ := List.mem_map.mp member
    rw [initial.fingerprints, List.mem_eraseDups, List.mem_map] at known
    obtain ⟨path, listed, same⟩ := known
    exact separate found included path listed same.symm
  rw [numbered] at foreign ⊢
  rw [later.forest, withEntry, inclusions_append, described]
  exact Forest.partOf_ofInclusions _ _ _ foreign

theorem Plan.Initial.partOf_withEntry (initial : plan.Initial hierarchy graph)
    (later : (plan.withEntry entry).Initial hierarchy larger) (separate : plan.Separate entry) :
    graph.PartOf larger where
  forest := initial.forest_withEntry later separate
  patterns := fun id pattern known => by
    rw [initial.pattern?_eq_some] at known
    rw [later.pattern?_eq_some]
    refine ⟨by simp [withEntry, known.1], ?_⟩
    rw [known.2, withEntry, numberOf_append known.1]
  cycles := fun id cycle known => by
    rw [initial.cycles] at known
    obtain ⟨steps, asked, described⟩ := Option.bind_eq_some_iff.mp known
    rw [later.cycles, withEntry, cycleRequests_append, List.lookup_append, asked]
    exact described

end

/-! The passes over a graph and over a larger one. -/

namespace Graph.PartOf
variable {plan : Plan} {hierarchy : Hierarchy} {roots : Roots} {graph larger : Graph} {step : Step}
  {tree : SearchTree}

theorem child (inside : graph.PartOf larger) (initial : plan.Initial hierarchy graph) {node : ChainNode}
    {id : StepId} (below : id ∈ graph.forest.childrenOf node) :
    larger.forest.steps[id]? = graph.forest.steps[id]? := by
  obtain ⟨label, key⟩ := initial.links.mem_childrenOf.mp below
  obtain ⟨step, found, _⟩ := Forest.key_at.mp key
  exact getElem?_of_prefix inside.forest.steps (List.getElem?_eq_some_iff.mp found).1

theorem nearPatterns (inside : graph.PartOf larger) (initial : plan.Initial hierarchy graph)
    (member : step ∈ graph.forest.steps) :
    larger.forest.nearPatterns step = graph.forest.nearPatterns step := by
  obtain ⟨id, found⟩ := List.getElem?_of_mem member
  obtain ⟨place, above, _⟩ := initial.links.exists_at found
  refine OrderedSet.ext fun served => ?_
  rw [Forest.mem_nearPatterns, Forest.mem_nearPatterns,
    inside.forest.childrenOf (Forest.has_of_at above)]
  refine exists_congr fun sibling => and_congr_right fun below => ?_
  rw [inside.child initial below]

theorem known_near (inside : graph.PartOf larger) (initial : plan.Initial hierarchy graph)
    {served : PatternId} (near : served ∈ graph.forest.nearPatterns step) :
    larger.pattern? served = graph.pattern? served := by
  obtain ⟨_, _, _, found, serves⟩ := Forest.mem_nearPatterns.mp near
  obtain ⟨pattern, known⟩ := initial.pattern_of_serves found serves
  rw [known, inside.patterns served pattern known]

theorem isEligible (inside : graph.PartOf larger) (initial : plan.Initial hierarchy graph)
    (member : step ∈ graph.forest.steps) : larger.isEligible roots step = graph.isEligible roots step := by
  unfold Graph.isEligible
  rw [inside.nearPatterns initial member]
  refine congrArg (!(graph.forest.nearPatterns step).isEmpty && ·) (Bool.eq_iff_iff.mpr ?_)
  rw [List.all_eq_true, List.all_eq_true]
  exact forall₂_congr fun served near => by rw [inside.known_near initial near]

theorem assertedNear (inside : graph.PartOf larger) (initial : plan.Initial hierarchy graph)
    (member : step ∈ graph.forest.steps) : larger.assertedNear step = graph.assertedNear step := by
  unfold Graph.assertedNear
  rw [inside.nearPatterns initial member]
  refine congrArg _ (List.filterMap_congr fun served near => ?_)
  rw [inside.known_near initial near]

theorem anchors (inside : graph.PartOf larger) (initial : plan.Initial hierarchy graph)
    (member : step ∈ graph.forest.steps) {id : CycleId} (anchors : graph.Anchors hierarchy roots step id) :
    larger.Anchors hierarchy roots step id := by
  obtain ⟨eligible, cycle, found, type, expected, below⟩ := anchors
  refine ⟨?_, cycle, inside.cycles id cycle found, type, ?_, below⟩
  · rwa [inside.isEligible initial member]
  · rwa [Graph.mem_newTypes, inside.assertedNear initial member, ← Graph.mem_newTypes]

theorem keptCycles (inside : graph.PartOf larger) (initial : plan.Initial hierarchy graph)
    {id : CycleId} (kept : id ∈ graph.keptCycles hierarchy roots) :
    id ∈ larger.keptCycles hierarchy roots := by
  obtain ⟨step, member, anchored⟩ := Graph.mem_keptCycles.mp kept
  exact Graph.mem_keptCycles.mpr
    ⟨step, inside.forest.steps.subset member, inside.anchors initial member anchored⟩

theorem subjectIris (inside : graph.PartOf larger) (initial : plan.Initial hierarchy graph)
    (member : step ∈ graph.forest.steps) :
    Graph.subjectIris larger.patterns step = Graph.subjectIris graph.patterns step := by
  obtain ⟨id, found⟩ := List.getElem?_of_mem member
  refine List.filterMap_congr fun served serves => ?_
  obtain ⟨pattern, known⟩ := initial.pattern_of_serves found serves
  obtain ⟨node, there, named⟩ := Option.map_eq_some_iff.mp known
  obtain ⟨other, alsoThere, same⟩ := Option.map_eq_some_iff.mp (inside.patterns served pattern known)
  rw [there, alsoThere, Option.bind_some, Option.bind_some, named, same]

theorem isPromoted (inside : graph.PartOf larger) (initial : plan.Initial hierarchy graph)
    (member : step ∈ graph.forest.steps) : larger.isPromoted step ↔ graph.isPromoted step := by
  unfold Graph.isPromoted
  rw [inside.subjectIris initial member]

theorem gainedSeeds (inside : graph.PartOf larger) (initial : plan.Initial hierarchy graph)
    (member : tree ∈ graph.forest.trees) : larger.gainedSeeds tree = graph.gainedSeeds tree := by
  obtain ⟨number, planted⟩ := List.getElem?_of_mem member
  have children : graph.forest.childrenOf (.tree number) = tree.children := by
    simp [Forest.childrenOf, planted]
  refine List.flatMap_congr fun id listed => ?_
  rw [inside.child initial (children ▸ listed)]
  cases found : graph.forest.steps[id]? with
  | none => rfl
  | some step => simp [inside.subjectIris initial (List.mem_of_getElem? found)]

end Graph.PartOf

/-- The later tree is this one, with more cycles at most. -/
structure SearchTree.SparedAs (tree later : SearchTree) : Prop where
  fingerprint : later.fingerprint = tree.fingerprint
  fromTypes : later.fromTypes = tree.fromTypes
  seeds : later.seeds = tree.seeds
  length : later.length = tree.length
  patterns : later.patterns = tree.patterns
  children : later.children = tree.children
  cycles : ∀ id, id ∈ tree.cycles → id ∈ later.cycles

structure Step.SparedAs (step later : Step) : Prop where
  parent : later.parent = step.parent
  label : later.label = step.label
  types : later.types = step.types
  patterns : later.patterns = step.patterns
  check : later.check = step.check
  children : later.children = step.children
  cycleStarts : ∀ id, id ∈ step.cycleStarts → id ∈ later.cycleStarts

structure Graph.SparedIn (graph larger : Graph) : Prop where
  trees : KeepsNumbers SearchTree.SparedAs graph.forest.trees larger.forest.trees
  steps : KeepsNumbers Step.SparedAs graph.forest.steps larger.forest.steps
  patterns : ∀ id pattern, graph.pattern? id = some pattern → larger.pattern? id = some pattern
  cycles : ∀ id cycle, graph.cycles.find? id = some cycle → larger.cycles.find? id = some cycle

namespace Graph.PartOf
variable {plan : Plan} {hierarchy : Hierarchy} {roots : Roots} {graph larger : Graph} {step : Step}
  {tree : SearchTree}

theorem step_sparedAs (inside : graph.PartOf larger) (initial : plan.Initial hierarchy graph)
    (member : step ∈ graph.forest.steps) :
    (graph.compiledStep hierarchy roots step).SparedAs (larger.compiledStep hierarchy roots step) := by
  have kept := graph.compiledStep_others hierarchy roots step
  have alsoKept := larger.compiledStep_others hierarchy roots step
  have field {β : Type} (view : Step → β) : _ = _ := (congrArg view alsoKept).trans (congrArg view kept).symm
  refine ⟨field Step.parent, field Step.label, OrderedSet.ext fun type => ?_, field Step.patterns,
    field Step.check, field Step.children, fun id starts => ?_⟩
  · rw [Graph.mem_types_compiledStep, Graph.mem_types_compiledStep, inside.isEligible initial member,
      inside.assertedNear initial member]
  · rw [Graph.mem_starts_compiledStep member] at starts
    rw [Graph.mem_starts_compiledStep (inside.forest.steps.subset member), inside.isPromoted initial member]
    refine ⟨starts.1, starts.2.imp (inside.anchors initial member) ?_⟩
    rintro ⟨before, kept⟩
    exact ⟨before, inside.keptCycles initial kept⟩

theorem tree_sparedAs (inside : graph.PartOf larger) (initial : plan.Initial hierarchy graph)
    (member : tree ∈ graph.forest.trees) :
    (graph.compiledTree hierarchy roots tree).SparedAs (larger.compiledTree hierarchy roots tree) := by
  refine ⟨rfl, rfl, OrderedSet.ext fun seed => ?_, rfl, rfl, rfl, fun id mentioned => ?_⟩
  · rw [Graph.mem_seeds_compiledTree, Graph.mem_seeds_compiledTree, inside.gainedSeeds initial member]
  · rw [Graph.mem_cycles_compiledTree] at mentioned ⊢
    exact ⟨mentioned.1, inside.keptCycles initial mentioned.2⟩

theorem compiled (inside : graph.PartOf larger) (initial : plan.Initial hierarchy graph) :
    (graph.compiled hierarchy roots).SparedIn (larger.compiled hierarchy roots) where
  trees := by
    rw [Graph.compiled_trees, Graph.compiled_trees]
    exact .map inside.forest.trees fun tree => inside.tree_sparedAs initial
  steps := by
    rw [Graph.compiled_steps, Graph.compiled_steps]
    exact .map inside.forest.steps fun step => inside.step_sparedAs initial
  patterns := inside.patterns
  cycles := fun id cycle found => by
    obtain ⟨before, step, member, anchors⟩ := Graph.find?_spread.mp found
    exact Graph.find?_spread.mpr ⟨inside.cycles id cycle before, step,
      inside.forest.steps.subset member, inside.anchors initial member anchors⟩

end Graph.PartOf

/-- An entry from other seeds leaves alone what the plan compiles to. -/
theorem compile_separate {plan : Plan} {entry : PlanEntry} {hierarchy : Hierarchy} {roots : Roots}
    {graph larger : Graph} (separate : plan.Separate entry)
    (compiled : plan.compile hierarchy roots = .ok graph)
    (also : (plan.withEntry entry).compile hierarchy roots = .ok larger) : graph.SparedIn larger := by
  obtain ⟨before, built, _, rfl⟩ := Graph.compile_eq_ok_iff.mp compiled
  obtain ⟨after, alsoBuilt, _, rfl⟩ := Graph.compile_eq_ok_iff.mp also
  have initial := (Plan.Initial.of_ok built).2
  exact (initial.partOf_withEntry (Plan.Initial.of_ok alsoBuilt).2 separate).compiled initial

def clubEntry : PlanEntry where
  context := "query"
  pattern := ⟨.iri "ann", .iri Rdf.Vocabulary.rdfType, .iri "Person"⟩
  check := none
  cycles := []
  paths := [⟨[⟨"member", "Person"⟩], ["club"], none⟩]

def Graph.treeCycles (graph : Graph) : List (List CycleId) :=
  graph.forest.trees.map fun tree => tree.cycles.elements

/-- No step of the group anchors the cycle of the group, but the step of the club does. -/
theorem compile_separate_group : groupPlan.Separate clubEntry ∧ ∃ graph larger,
    groupPlan.compile groupTypes ⟨∅, .ofList ["ann"]⟩ = .ok graph ∧
    (groupPlan.withEntry clubEntry).compile groupTypes ⟨∅, .ofList ["ann"]⟩ = .ok larger ∧
    graph.SparedIn larger ∧ graph.treeCycles = [[]] ∧ larger.treeCycles = [["c"], []] := by
  have separate : groupPlan.Separate clubEntry := by decide +kernel
  have before : (groupPlan.compile groupTypes ⟨∅, .ofList ["ann"]⟩).map Graph.treeCycles = .ok [[]] := by
    decide +kernel
  have after : ((groupPlan.withEntry clubEntry).compile groupTypes ⟨∅, .ofList ["ann"]⟩).map
      Graph.treeCycles = .ok [["c"], []] := by
    decide +kernel
  obtain ⟨graph, compiled, none⟩ := map_eq_ok.mp before
  obtain ⟨larger, also, one⟩ := map_eq_ok.mp after
  exact ⟨separate, graph, larger, compiled, also, compile_separate separate compiled also, none, one⟩

end PlanGraph
