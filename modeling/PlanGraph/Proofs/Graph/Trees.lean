import Mathlib.Algebra.GroupWithZero.Nat
import PlanGraph.Proofs.Graph.Alike
import PlanGraph.Proofs.Graph.Lengths
import PlanGraph.Proofs.Graph.Trie

/-! The trees of a graph. Paths with seeds of one fingerprint share a tree, trees stand in the order in
which paths first ask for them, and each tree gathers what its paths and their entries bring along. -/

set_option autoImplicit false
namespace PlanGraph

def Plan.includedPaths (plan : Plan) : List PlannedPath :=
  plan.entries.flatMap fun entry => entry.includedPaths.map Prod.fst

/-- The steps of all included paths from seeds of a fingerprint, counted path by path. -/
def Plan.stepCount (plan : Plan) (fingerprint : Fingerprint) : Nat :=
  ((plan.includedPaths.filter fun path => PlanGraph.fingerprint path.seeds = fingerprint).map
    fun path => path.steps.length).sum

structure PlanEntry.Enters (entry : PlanEntry) (fingerprint : Fingerprint) (path : PlannedPath)
    (type : Iri) : Prop where
  included : (path, type) ∈ entry.includedPaths
  seeds : PlanGraph.fingerprint path.seeds = fingerprint

/-- When an entry with included paths is added, the description of its cycles answers with the
identifiers. -/
def Plan.Answers (plan : Plan) (hierarchy : Hierarchy) (entry : PlanEntry) (ids : List CycleId) : Prop :=
  entry.includedPaths ≠ [] ∧ ∃ before after builder book, plan.entries = before ++ entry :: after ∧
    (Builder.start plan.prefixes).addEntries hierarchy before = .ok builder ∧
    builder.book.describeAll hierarchy entry.cycles = (book, .ok ids)

structure Plan.Plants (plan : Plan) (graph : Graph) : Prop where
  fingerprints : graph.forest.fingerprints =
    (plan.includedPaths.map fun path => fingerprint path.seeds).eraseDups
  found : ∀ path ∈ plan.includedPaths, ∃ id tree, graph.treeWithSeeds? path.seeds = some id ∧
    graph.forest.trees[id]? = some tree ∧ tree.fingerprint = fingerprint path.seeds
  lengths : ∀ tree ∈ graph.forest.trees, tree.length = plan.stepCount tree.fingerprint

structure Plan.Gathers (plan : Plan) (hierarchy : Hierarchy) (initial : Graph) (tree : SearchTree) :
    Prop where
  fromTypes : ∀ type, type ∈ tree.fromTypes ↔ ∃ entry ∈ plan.entries, ∃ path,
    entry.Enters tree.fingerprint path type
  seeds : ∀ seed, seed ∈ tree.seeds ↔ ∃ entry ∈ plan.entries, ∃ path type,
    entry.Enters tree.fingerprint path type ∧ seed ∈ path.seeds
  patterns : ∀ id, id ∈ tree.patterns ↔ ∃ entry ∈ plan.entries, ∃ path type,
    entry.Enters tree.fingerprint path type ∧ path.steps = [] ∧ entry.pattern.assertedType? = none ∧
      initial.pattern? id = some entry.pattern
  cycles : ∀ id, id ∈ tree.cycles ↔ ∃ entry ids, plan.Answers hierarchy entry ids ∧
    (∃ path type, entry.Enters tree.fingerprint path type) ∧ id ∈ ids

/-! Paths that are skipped. -/

def PlannedPath.IsSkipped (path : PlannedPath) (pattern : TriplePattern) : Prop :=
  path.steps = [] ∧ (path.seeds = [] ∨ pattern.object.iri? = none)

instance (path : PlannedPath) (pattern : TriplePattern) : Decidable (path.IsSkipped pattern) :=
  inferInstanceAs (Decidable (_ ∧ _))

/-- The entry without skipped paths, and without cycles if no path is left. -/
def PlanEntry.trimmed (entry : PlanEntry) : PlanEntry :=
  let paths := entry.paths.filter fun path => ¬path.IsSkipped entry.pattern
  { entry with paths, cycles := if paths = [] then [] else entry.cycles }

def Plan.trimmed (plan : Plan) : Plan := { plan with entries := plan.entries.map PlanEntry.trimmed }

theorem PlannedPath.isSkipped_iff {path : PlannedPath} {pattern : TriplePattern} :
    path.IsSkipped pattern ↔ path.startingType? pattern = none := by
  unfold IsSkipped startingType?
  cases path.steps with
  | nil => cases path.seeds <;> simp
  | cons step rest => simp

theorem PlanEntry.includedPaths_eq_nil_iff {entry : PlanEntry} :
    entry.includedPaths = [] ↔ ∀ path ∈ entry.paths, path.IsSkipped entry.pattern := by
  simp [includedPaths, PlannedPath.isSkipped_iff]

theorem PlanEntry.includedPaths_trimmed (entry : PlanEntry) :
    entry.trimmed.includedPaths = entry.includedPaths := by
  unfold includedPaths trimmed
  rw [List.filterMap_filter]
  refine List.filterMap_congr fun path _ => ?_
  by_cases skipped : path.IsSkipped entry.pattern
  · simp [skipped, PlannedPath.isSkipped_iff.mp skipped]
  · simp [skipped]

theorem PlanEntry.cycles_trimmed {entry : PlanEntry} (included : entry.includedPaths ≠ []) :
    entry.trimmed.cycles = entry.cycles := by
  refine if_neg fun none_left => included (includedPaths_eq_nil_iff.mpr fun path member => ?_)
  simpa using List.filter_eq_nil_iff.mp none_left path member

theorem PlanEntry.cycleRequests_trimmed (entry : PlanEntry) :
    entry.trimmed.cycleRequests = entry.cycleRequests := by
  unfold cycleRequests
  rw [includedPaths_trimmed]
  split
  · rfl
  · next included => rw [cycles_trimmed included]

theorem Builder.addEntry_trimmed (hierarchy : Hierarchy) (builder : Builder) (entry : PlanEntry) :
    builder.addEntry hierarchy entry.trimmed = builder.addEntry hierarchy entry := by
  have opened : builder.openSpace entry.trimmed = builder.openSpace entry := rfl
  rw [addEntry_eq, addEntry_eq]
  unfold PlanEntry.plantAll
  rw [opened, entry.includedPaths_trimmed, entry.cycleRequests_trimmed]
  rfl

theorem Builder.addEntries_trimmed (hierarchy : Hierarchy) (builder : Builder)
    (entries : List PlanEntry) :
    builder.addEntries hierarchy (entries.map PlanEntry.trimmed) = builder.addEntries hierarchy entries := by
  induction entries generalizing builder with
  | nil => rfl
  | cons entry rest ih =>
    rw [List.map_cons, addEntries, addEntries, addEntry_trimmed]
    cases builder.addEntry hierarchy entry with
    | mk next failure =>
      cases failure with
      | none => exact ih next
      | some error => rfl

theorem Plan.compile_trimmed (plan : Plan) (hierarchy : Hierarchy) (roots : Roots) :
    plan.trimmed.compile hierarchy roots = plan.compile hierarchy roots := by
  have same : plan.trimmed.initialGraph hierarchy = plan.initialGraph hierarchy :=
    congrArg (Except.map Builder.graph) (Builder.addEntries_trimmed hierarchy _ plan.entries)
  unfold compile
  rw [same]

/-! The order of the trees. -/

namespace Forest

theorem fingerprints_plant {forest : Forest} (links : forest.Linked) (fingerprint : Fingerprint) :
    (forest.plant fingerprint).1.fingerprints =
      if fingerprint ∈ forest.fingerprints then forest.fingerprints
      else forest.fingerprints ++ [fingerprint] := by
  cases found : forest.treeWith? fingerprint with
  | some id =>
    have member := List.mem_of_getElem? (links.treeWith?_eq_some.mp found)
    rw [plant_of_some found, if_pos member]
  | none =>
    have absent : ¬fingerprint ∈ forest.fingerprints := by
      intro member
      obtain ⟨id, there⟩ := List.getElem?_of_mem member
      rw [links.treeWith?_eq_some.mpr there] at found
      cases found
    rw [plant_of_none found, if_neg absent, fingerprints_withTree]

theorem fingerprints_eq_lengths (forest : Forest) : forest.fingerprints = forest.lengths.map Prod.fst := by
  simp [fingerprints, lengths, Function.comp_def]

theorem fingerprints_takeIn (forest : Forest) (id : PatternId) (inclusion : Inclusion) :
    (forest.takeIn id inclusion).fingerprints = (forest.plant inclusion.fingerprint).1.fingerprints := by
  rw [fingerprints_eq_lengths, lengths_takeIn, ← fingerprints_eq_lengths]
  exact map_modify_of_eq fun _ => rfl

theorem fingerprints_ofInclusions (number : TriplePattern → PatternId) (inclusions : List Inclusion) :
    (ofInclusions number inclusions).fingerprints =
      (inclusions.map Inclusion.fingerprint).eraseDups := by
  induction inclusions using List.reverseRecOn with
  | nil => rfl
  | append_singleton earlier last ih =>
    have links : (ofInclusions number earlier).Linked := (madeOf_ofInclusions number earlier).links
    have whole : ofInclusions number (earlier ++ [last]) =
        (ofInclusions number earlier).takeIn (number last.pattern) last := by
      simp [ofInclusions]
    rw [whole, fingerprints_takeIn, fingerprints_plant links, ih, List.map_append, List.map_singleton,
      eraseDups_concat]
    simp only [List.mem_eraseDups]

end Forest

theorem paths_inclusions (plan : Plan) (cycles : OrderedMap CycleId Cycle) :
    (inclusions plan.entries cycles).map Inclusion.path = plan.includedPaths := by
  unfold inclusions Plan.includedPaths
  rw [List.map_flatMap]
  refine List.flatMap_congr fun entry _ => ?_
  simp [PlanEntry.inclusions, Function.comp_def]

theorem totalLength_eq_sum (inclusions : List Inclusion) (fingerprint : Fingerprint) :
    totalLength inclusions fingerprint =
      (((inclusions.map Inclusion.path).filter fun path =>
        PlanGraph.fingerprint path.seeds = fingerprint).map fun path => path.steps.length).sum := by
  induction inclusions using List.reverseRecOn with
  | nil => rfl
  | append_singleton earlier last ih =>
    rw [totalLength_concat, ih, List.map_append, List.filter_append, List.map_append, List.sum_append]
    by_cases same : PlanGraph.fingerprint last.path.seeds = fingerprint
    · simp [Inclusion.lengthAt, Inclusion.fingerprint, same]
    · simp [Inclusion.lengthAt, Inclusion.fingerprint, same]

theorem totalLength_append (earlier later : List Inclusion) (fingerprint : Fingerprint) :
    totalLength (earlier ++ later) fingerprint =
      totalLength earlier fingerprint + totalLength later fingerprint := by
  simp only [totalLength_eq_sum, List.map_append, List.filter_append, List.sum_append]

section
variable {plan : Plan} {hierarchy : Hierarchy} {initial : Graph}

theorem Plan.Initial.fingerprints (represents : plan.Initial hierarchy initial) :
    initial.forest.fingerprints = (plan.includedPaths.map fun path => fingerprint path.seeds).eraseDups := by
  rw [represents.forest, Forest.fingerprints_ofInclusions, ← paths_inclusions plan initial.cycles,
    List.map_map]
  rfl

theorem Plan.Initial.length_of_mem (represents : plan.Initial hierarchy initial) {tree : SearchTree}
    (member : tree ∈ initial.forest.trees) :
    tree.length = plan.stepCount tree.fingerprint := by
  rw [represents.forest] at member
  have listed : (tree.fingerprint, tree.length) ∈ Forest.lengths _ := List.mem_map.mpr ⟨tree, member, rfl⟩
  rw [length_ofInclusions _ listed, totalLength_eq_sum, paths_inclusions]
  rfl

theorem Plan.Initial.planted (represents : plan.Initial hierarchy initial) {graph : Graph}
    (links : graph.forest.Linked) (same : graph.forest.fingerprints = initial.forest.fingerprints)
    {path : PlannedPath} (included : path ∈ plan.includedPaths) : ∃ id tree,
      graph.treeWithSeeds? path.seeds = some id ∧ graph.forest.trees[id]? = some tree ∧
        tree.fingerprint = fingerprint path.seeds := by
  have asked : fingerprint path.seeds ∈ graph.forest.fingerprints := by
    rw [same, represents.fingerprints, List.mem_eraseDups]
    exact List.mem_map.mpr ⟨path, included, rfl⟩
  obtain ⟨id, there⟩ := List.getElem?_of_mem asked
  obtain ⟨tree, found, named⟩ := Forest.fingerprint_at.mp there
  exact ⟨id, tree, links.treeWith?_eq_some.mpr there, found, named⟩

theorem Plan.Initial.plants (represents : plan.Initial hierarchy initial) {graph : Graph}
    (links : graph.forest.Linked) (same : graph.forest.lengths = initial.forest.lengths) :
    plan.Plants graph := by
  have fingerprints : graph.forest.fingerprints = initial.forest.fingerprints := by
    rw [Forest.fingerprints_eq_lengths, same, ← Forest.fingerprints_eq_lengths]
  constructor
  · rw [fingerprints, represents.fingerprints]
  · exact fun path included => represents.planted links fingerprints included
  · intro tree member
    have listed : (tree.fingerprint, tree.length) ∈ graph.forest.lengths :=
      List.mem_map.mpr ⟨tree, member, rfl⟩
    rw [same] at listed
    obtain ⟨before, inside, pair⟩ := List.mem_map.mp listed
    obtain ⟨named, long⟩ := Prod.mk.inj pair
    rw [← long, ← named]
    exact represents.length_of_mem inside

end

/-! What trees gather. -/

section
variable {plan : Plan} {hierarchy : Hierarchy} {initial : Graph} {entry : PlanEntry}

/-- Wherever an entry with included paths stands, the description of its cycles answers with those of its
requests that the graph describes. -/
theorem Plan.Initial.answers_at (represents : plan.Initial hierarchy initial)
    (met : hierarchy.CanMeet (cycleRequests plan.entries)) {before after : List PlanEntry}
    (split : plan.entries = before ++ entry :: after) (included : entry.includedPaths ≠ []) :
    ∃ builder book, (Builder.start plan.prefixes).addEntries hierarchy before = .ok builder ∧
      builder.book.describeAll hierarchy entry.cycles =
        (book, .ok ((entry.cycleRequests.map Prod.fst).filter initial.cycles.contains)) := by
  have start : (Builder.start plan.prefixes).Represents hierarchy plan.prefixes [] :=
    ⟨rfl, rfl, rfl, rfl, CycleBook.records_empty hierarchy⟩
  have requests : cycleRequests plan.entries =
      cycleRequests before ++ entry.cycleRequests ++ cycleRequests after := by
    simp [split, cycleRequests]
  rw [requests] at met
  have metBefore : hierarchy.CanMeet (cycleRequests before) := met.of_append.of_append
  rcases Builder.addEntries_spec start (fun _ _ found => by cases found) before with
    ⟨_, builder, taken, added⟩ | ⟨unmet, _⟩
  · rw [List.nil_append] at taken
    rcases CycleBook.requestAll_spec taken.book metBefore entry.cycleRequests with
      ⟨_, book, later, described⟩ | ⟨unmet, _⟩
    · refine ⟨builder, book, added, ?_⟩
      rw [CycleBook.describeAll_eq_requestAll, ← PlanEntry.cycleRequests_of_included included, described]
      -- An identifier that was requested by now is described in the book as it is in the graph.
      have known : ∀ id ∈ entry.cycleRequests.map Prod.fst,
          book.cycles.contains id = initial.cycles.contains id := by
        intro id member
        obtain ⟨request, requested, rfl⟩ := List.mem_map.mp member
        obtain ⟨steps, first⟩ := (later.requested _).mp
          (later.asked_of_mem (List.mem_append_right _ requested))
        have same : (cycleRequests plan.entries).lookup request.1 = some steps := by
          rw [requests, List.lookup_append, first, Option.some_or]
        simp only [OrderedMap.contains, represents.cycles, later.cycles, first, same]
      rw [List.filter_congr known]
    · exact absurd met.of_append unmet
  · exact absurd metBefore unmet

theorem Plan.Initial.answers_iff (represents : plan.Initial hierarchy initial)
    (met : hierarchy.CanMeet (cycleRequests plan.entries)) {ids : List CycleId} :
    plan.Answers hierarchy entry ids ↔ entry ∈ plan.entries ∧ entry.includedPaths ≠ [] ∧
      ids = (entry.cycleRequests.map Prod.fst).filter initial.cycles.contains := by
  constructor
  · intro answers
    obtain ⟨included, before, after, builder, book, split, added, described⟩ := answers
    obtain ⟨again, last, addedAgain, expected⟩ := represents.answers_at met split included
    cases added.symm.trans addedAgain
    cases described.symm.trans expected
    exact ⟨by simp [split], included, rfl⟩
  · rintro ⟨member, included, rfl⟩
    obtain ⟨before, after, split⟩ := List.append_of_mem member
    obtain ⟨builder, book, added, described⟩ := represents.answers_at met split included
    exact ⟨included, before, after, builder, book, split, added, described⟩

theorem PlanEntry.Enters.included_ne_nil {fingerprint : Fingerprint} {path : PlannedPath} {type : Iri}
    (enters : entry.Enters fingerprint path type) : entry.includedPaths ≠ [] :=
  List.ne_nil_of_mem enters.included

theorem exists_entering_iff {cycles : OrderedMap CycleId Cycle} {fingerprint : Fingerprint}
    {holds : Inclusion → Prop} :
    (∃ inclusion ∈ inclusions plan.entries cycles, inclusion.fingerprint = fingerprint ∧
        holds inclusion) ↔
      ∃ entry ∈ plan.entries, ∃ path type, entry.Enters fingerprint path type ∧
        holds ⟨entry.pattern, path, type, entry.describedCycles cycles⟩ := by
  constructor
  · rintro ⟨inclusion, listed, seeds, holding⟩
    obtain ⟨entry, inside, listed⟩ := List.mem_flatMap.mp listed
    obtain ⟨⟨path, type⟩, included, rfl⟩ := List.mem_map.mp listed
    exact ⟨entry, inside, path, type, ⟨included, seeds⟩, holding⟩
  · rintro ⟨entry, inside, path, type, enters, holding⟩
    exact ⟨_, mem_inclusions_of_included inside enters.included cycles, enters.seeds, holding⟩

theorem PlannedPath.labels_eq_nil_iff {path : PlannedPath} {pattern : TriplePattern} :
    path.labels pattern = [] ↔ path.steps = [] ∧ pattern.assertedType? = none := by
  unfold labels
  cases pattern.assertedType? with
  | some type => simp
  | none => by_cases empty : path.steps = [] <;> simp [empty]

theorem Plan.Initial.gathers (represents : plan.Initial hierarchy initial)
    (met : hierarchy.CanMeet (cycleRequests plan.entries)) {tree : SearchTree}
    (member : tree ∈ initial.forest.trees) : plan.Gathers hierarchy initial tree := by
  -- What a tree carries was left by the paths that enter it.
  have carries (mark : TreeMark PatternId) : tree.content.Carries some mark ↔
      ∃ entry ∈ plan.entries, ∃ path type, entry.Enters tree.fingerprint path type ∧
        Inclusion.LeavesOnTree ⟨entry.pattern, path, type, entry.describedCycles initial.cycles⟩
          (numberOf plan.entries entry.pattern) mark :=
    (represents.madeOf.tree_carries_iff member mark).trans exists_entering_iff
  constructor
  · intro type
    refine (carries (.source type)).trans ?_
    constructor
    · rintro ⟨entry, inside, path, _, enters, rfl⟩
      exact ⟨entry, inside, path, enters⟩
    · rintro ⟨entry, inside, path, enters⟩
      exact ⟨entry, inside, path, type, enters, rfl⟩
  · intro seed
    exact carries (.seed seed)
  · intro id
    have numbered : id ∈ tree.patterns ↔ tree.content.Carries some (.pattern id) := by
      simp [TreeContent.Carries, SearchTree.content]
    rw [numbered, carries]
    constructor
    · rintro ⟨entry, inside, path, type, enters, ends, number⟩
      obtain ⟨empty, unasserted⟩ := PlannedPath.labels_eq_nil_iff.mp ends
      exact ⟨entry, inside, path, type, enters, empty, unasserted,
        represents.pattern?_eq_some.mpr ⟨List.mem_map_of_mem inside, number⟩⟩
    · rintro ⟨entry, inside, path, type, enters, empty, unasserted, known⟩
      exact ⟨entry, inside, path, type, enters, PlannedPath.labels_eq_nil_iff.mpr ⟨empty, unasserted⟩,
        (represents.pattern?_eq_some.mp known).2⟩
  · intro id
    refine (carries (.cycle id)).trans ?_
    constructor
    · rintro ⟨entry, inside, path, type, enters, described⟩
      exact ⟨entry, _, (represents.answers_iff met).mpr ⟨inside, enters.included_ne_nil, rfl⟩,
        ⟨path, type, enters⟩, OrderedSet.mem_ofList.mp described⟩
    · rintro ⟨entry, ids, answers, ⟨path, type, enters⟩, answered⟩
      obtain ⟨inside, _, rfl⟩ := (represents.answers_iff met).mp answers
      exact ⟨entry, inside, path, type, enters, OrderedSet.mem_ofList.mpr answered⟩

theorem Plan.Initial.described_iff (represents : plan.Initial hierarchy initial)
    (met : hierarchy.CanMeet (cycleRequests plan.entries)) {id : CycleId} :
    initial.cycles.contains id = true ↔ ∃ entry ids, plan.Answers hierarchy entry ids ∧ id ∈ ids := by
  constructor
  · intro described
    obtain ⟨cycle, found⟩ := OrderedMap.contains_iff.mp described
    rw [represents.cycles] at found
    obtain ⟨steps, first, _⟩ := Option.bind_eq_some_iff.mp found
    obtain ⟨entry, inside, asks⟩ := List.mem_flatMap.mp (mem_of_lookup_eq_some first)
    have included : entry.includedPaths ≠ [] := by
      intro idle
      simp [PlanEntry.cycleRequests, idle] at asks
    exact ⟨entry, _, (represents.answers_iff met).mpr ⟨inside, included, rfl⟩,
      List.mem_filter.mpr ⟨List.mem_map.mpr ⟨_, asks, rfl⟩, described⟩⟩
  · rintro ⟨entry, ids, answers, answered⟩
    obtain ⟨_, _, rfl⟩ := (represents.answers_iff met).mp answers
    exact (List.mem_filter.mp answered).2

end

/-- How a graph, its initial graph and the included paths belong together. -/
structure Plan.SharesTrees (plan : Plan) (hierarchy : Hierarchy) (roots : Roots) (initial graph : Graph) :
    Prop where
  first : plan.Plants initial
  last : plan.Plants graph
  gathers : ∀ tree ∈ initial.forest.trees, plan.Gathers hierarchy initial tree
  described : ∀ id, initial.cycles.contains id = true ↔
    ∃ entry ids, plan.Answers hierarchy entry ids ∧ id ∈ ids
  trimmed : plan.trimmed.compile hierarchy roots = .ok graph

/-- Trees are shared by the paths from seeds of one fingerprint, through the whole compilation, and what
has no included path does not count. -/
theorem compile_trees {plan : Plan} {hierarchy : Hierarchy} {roots : Roots} {graph : Graph}
    (compiled : plan.compile hierarchy roots = .ok graph) :
    ∃ initial, plan.initialGraph hierarchy = .ok initial ∧
      plan.SharesTrees hierarchy roots initial graph := by
  obtain ⟨initial, built, _, rfl⟩ := Graph.compile_eq_ok_iff.mp compiled
  obtain ⟨met, represents⟩ := Plan.Initial.of_ok built
  have links : (initial.compiled hierarchy roots).forest.Linked :=
    (Graph.sameLinks_compiled initial).linked represents.links
  have lengths : (initial.compiled hierarchy roots).forest.lengths = initial.forest.lengths := by
    unfold Forest.lengths
    rw [Graph.compiled_trees, List.map_map]
    rfl
  refine ⟨initial, built, ?_⟩
  constructor
  · exact represents.plants represents.links rfl
  · exact represents.plants links lengths
  · exact fun tree member => represents.gathers met member
  · exact fun id => represents.described_iff met
  · rw [plan.compile_trimmed, compiled]

/-- A plan with two trees, in which one path without steps is included and others are skipped. -/
def archivePlan : Plan where
  prefixes := ∅
  entries := [memberEntry,
    { context := "query"
      pattern := ⟨.variable "y", .iri "author", .iri "Person"⟩
      check := none
      cycles := [⟨"loop", [⟨"knows", "Person"⟩, ⟨"wrote", "Author"⟩]⟩]
      paths := [⟨[], ["index"], none⟩, ⟨[], [], none⟩] },
    { context := "query"
      pattern := ⟨.variable "y", .iri "title", .variable "t"⟩
      check := none
      cycles := [⟨"unused", [⟨"cites", "Book"⟩]⟩]
      paths := [⟨[], ["group"], none⟩] },
    nameEntry]

theorem compile_trees_archive : ∃ graph initial,
    archivePlan.compile groupTypes ⟨.ofList ["x"], ∅⟩ = .ok graph ∧
      archivePlan.initialGraph groupTypes = .ok initial ∧
      archivePlan.SharesTrees groupTypes ⟨.ofList ["x"], ∅⟩ initial graph := by
  have succeeds : (archivePlan.compile groupTypes ⟨.ofList ["x"], ∅⟩).isOk = true := by decide +kernel
  obtain ⟨graph, compiled⟩ := exists_ok succeeds
  obtain ⟨initial, built, shares⟩ := compile_trees compiled
  exact ⟨graph, initial, compiled, built, shares⟩

end PlanGraph
