import PlanGraph.Proofs.Graph.InitialGraph

/-! The forest of an initial graph as a trie. From a tree, a word leads to one step if a path of the
plan from the same seeds begins with it, and nowhere otherwise; the step holds what these paths say. -/

set_option autoImplicit false
namespace PlanGraph

def Plan.Includes (plan : Plan) (pattern : TriplePattern) (path : PlannedPath) : Prop :=
  ∃ entry ∈ plan.entries, entry.pattern = pattern ∧ path ∈ entry.paths ∧
    (path.startingType? pattern).isSome = true

def Plan.Passes (plan : Plan) (fingerprint : Fingerprint) (word : List StepLabel)
    (pattern : TriplePattern) (path : PlannedPath) : Prop :=
  plan.Includes pattern path ∧ PlanGraph.fingerprint path.seeds = fingerprint ∧
    word <+: path.labels pattern

def Plan.Ends (plan : Plan) (fingerprint : Fingerprint) (word : List StepLabel)
    (pattern : TriplePattern) (path : PlannedPath) : Prop :=
  plan.Includes pattern path ∧ PlanGraph.fingerprint path.seeds = fingerprint ∧
    path.labels pattern = word

/-- The step holds what the paths along its word say, and nothing else. -/
structure Plan.Explains (plan : Plan) (graph : Graph) (fingerprint : Fingerprint)
    (word : List StepLabel) (step : Step) : Prop where
  types : ∀ type, type ∈ step.types ↔ ∃ pattern path, plan.Passes fingerprint word pattern path ∧
    (path.types pattern)[word.length - 1]? = some type
  patterns : ∀ id, id ∈ step.patterns ↔ ∃ pattern path, plan.Ends fingerprint word pattern path ∧
    graph.pattern? id = some pattern
  checked : step.check = some true ↔ ∃ pattern path, plan.Ends fingerprint word pattern path ∧
    pattern.assertedType?.isSome = true ∧ path.check = some true
  decided : step.check ≠ some false

theorem Plan.Includes.mem_patterns {plan : Plan} {pattern : TriplePattern} {path : PlannedPath}
    (included : plan.Includes pattern path) : pattern ∈ plan.entries.map PlanEntry.pattern := by
  obtain ⟨entry, inside, same, _⟩ := included
  exact List.mem_map.mpr ⟨entry, inside, same⟩

theorem exists_inclusion_iff {plan : Plan} {cycles : OrderedMap CycleId Cycle}
    {holds : TriplePattern → PlannedPath → Prop} :
    (∃ inclusion ∈ inclusions plan.entries cycles, holds inclusion.pattern inclusion.path) ↔
      ∃ pattern path, plan.Includes pattern path ∧ holds pattern path := by
  constructor
  · rintro ⟨inclusion, member, holding⟩
    obtain ⟨entry, inside, member⟩ := List.mem_flatMap.mp member
    obtain ⟨⟨path, fromType⟩, found, rfl⟩ := List.mem_map.mp member
    obtain ⟨listed, starts⟩ := PlanEntry.mem_includedPaths.mp found
    exact ⟨entry.pattern, path, ⟨entry, inside, rfl, listed, by rw [starts]; rfl⟩, holding⟩
  · rintro ⟨pattern, path, ⟨entry, inside, same, listed, starts⟩, holding⟩
    subst same
    obtain ⟨type, starts⟩ := Option.isSome_iff_exists.mp starts
    have found := PlanEntry.mem_includedPaths.mpr ⟨listed, starts⟩
    exact ⟨_, mem_inclusions_of_included inside found cycles, holding⟩

section
variable {plan : Plan} {hierarchy : Hierarchy} {graph : Graph} {place : Place}

theorem Plan.Initial.bears_step_iff (initial : plan.Initial hierarchy graph) (deep : place.word ≠ [])
    {mark : StepMark PatternId} {said : TriplePattern → PlannedPath → Prop}
    (leaves : ∀ inclusion : Inclusion,
      inclusion.LeavesOnStep (numberOf plan.entries inclusion.pattern) place.word mark ↔
        said inclusion.pattern inclusion.path) :
    graph.forest.Bears some (.step place mark) ↔
      ∃ pattern path, plan.Passes place.fingerprint place.word pattern path ∧ said pattern path := by
  rw [initial.bears_iff]
  simp only [Inclusion.Leaves, leaves, deep, ne_eq, not_false_eq_true, true_and]
  refine Iff.trans (@exists_inclusion_iff plan graph.cycles fun pattern path =>
    PlanGraph.fingerprint path.seeds = place.fingerprint ∧ place.word <+: path.labels pattern ∧
      said pattern path) ?_
  simp only [Plan.Passes, and_assoc]

theorem Plan.Initial.bears_present_iff (initial : plan.Initial hierarchy graph)
    (deep : place.word ≠ []) : graph.forest.Bears (some : PatternId → _) (.step place .present) ↔
      ∃ pattern path, plan.Passes place.fingerprint place.word pattern path := by
  have bears : graph.forest.Bears (some : PatternId → _) (.step place .present) ↔ ∃ pattern path,
      plan.Passes place.fingerprint place.word pattern path ∧ True :=
    initial.bears_step_iff deep fun _ => Iff.rfl
  simpa only [and_true] using bears

theorem Plan.Passes.of_ends {fingerprint : Fingerprint} {word : List StepLabel}
    {pattern : TriplePattern} {path : PlannedPath} (ends : plan.Ends fingerprint word pattern path) :
    plan.Passes fingerprint word pattern path :=
  ⟨ends.1, ends.2.1, ends.2.2 ▸ List.prefix_rfl⟩

theorem Plan.Initial.explains (initial : plan.Initial hierarchy graph) (deep : place.word ≠ [])
    {id : StepId} {step : Step} (here : graph.forest.At (.step id) place)
    (found : graph.forest.steps[id]? = some step) :
    plan.Explains graph place.fingerprint place.word step := by
  -- One step stands at the place, so it carries what the place bears.
  have carries (mark : StepMark PatternId) (said : TriplePattern → PlannedPath → Prop)
      (leaves : ∀ inclusion : Inclusion,
        inclusion.LeavesOnStep (numberOf plan.entries inclusion.pattern) place.word mark ↔
          said inclusion.pattern inclusion.path) :
      step.content.Carries some mark ↔ ∃ pattern path,
        plan.Passes place.fingerprint place.word pattern path ∧ said pattern path := by
    have only : graph.forest.StepAt place (·.Carries some mark) ↔ step.content.Carries some mark :=
      initial.links.stepAt_iff here found
    exact only.symm.trans (initial.bears_step_iff deep leaves)
  refine ⟨fun type => carries (.type type) (fun pattern path =>
    (path.types pattern)[place.word.length - 1]? = some type) fun _ => Iff.rfl, fun served => ?_, ?_, ?_⟩
  · have served_iff := carries (.pattern served) (fun pattern path =>
      place.word = path.labels pattern ∧ served = numberOf plan.entries pattern) fun _ => Iff.rfl
    simp only [StepContent.Carries, Option.some.injEq, exists_eq_right] at served_iff
    refine served_iff.trans ⟨?_, ?_⟩
    · rintro ⟨pattern, path, passes, whole, number⟩
      exact ⟨pattern, path, ⟨passes.1, passes.2.1, whole.symm⟩,
        initial.pattern?_eq_some.mpr ⟨passes.1.mem_patterns, number⟩⟩
    · rintro ⟨pattern, path, ends, known⟩
      exact ⟨pattern, path, .of_ends ends, ends.2.2.symm, (initial.pattern?_eq_some.mp known).2⟩
  · have checked_iff := carries (.check true) (fun pattern path => place.word = path.labels pattern ∧
      (pattern.assertedType?.isSome = true ∧ path.check = some true) ∧ true = true) fun _ => Iff.rfl
    refine checked_iff.trans ⟨?_, ?_⟩
    · rintro ⟨pattern, path, passes, whole, checks, _⟩
      exact ⟨pattern, path, ⟨passes.1, passes.2.1, whole.symm⟩, checks⟩
    · rintro ⟨pattern, path, ends, checks⟩
      exact ⟨pattern, path, .of_ends ends, ends.2.2.symm, checks, rfl⟩
  · intro refused
    have refused_iff := carries (.check false) (fun pattern path => place.word = path.labels pattern ∧
      (pattern.assertedType?.isSome = true ∧ path.check = some true) ∧ false = true) fun _ => Iff.rfl
    obtain ⟨_, _, _, _, _, impossible⟩ := refused_iff.mp refused
    cases impossible

/-- The step that a word leads to exists exactly if an included path from seeds of the tree begins
with the word; it is the only one, and those paths explain it. -/
theorem forest_is_trie (built : plan.initialGraph hierarchy = .ok graph) {id : TreeId}
    {tree : SearchTree} (planted : graph.forest.trees[id]? = some tree) {word : List StepLabel}
    (nonempty : word ≠ []) :
    ((∃ pattern path, plan.Passes tree.fingerprint word pattern path) →
      ∃ (number : StepId) (step : Step), graph.forest.follow (.tree id) word = [.step number] ∧
        graph.forest.steps[number]? = some step ∧ plan.Explains graph tree.fingerprint word step) ∧
    ((¬∃ pattern path, plan.Passes tree.fingerprint word pattern path) →
      graph.forest.follow (.tree id) word = []) := by
  have initial := (Plan.Initial.of_ok built).2
  have links := initial.links
  let place : Place := ⟨tree.fingerprint, word⟩
  have root : graph.forest.At (.tree id) (.root tree.fingerprint) :=
    .tree (Forest.fingerprint_at.mpr ⟨tree, planted, rfl⟩)
  have present : graph.forest.Bears some (.step place .present) ↔ ∃ pattern path,
      plan.Passes tree.fingerprint word pattern path := initial.bears_present_iff nonempty
  constructor
  · intro passes
    obtain ⟨number, step, here, found, _⟩ := present.mpr passes
    exact ⟨number, step, links.follow_eq_singleton root here, found, initial.explains nonempty here found⟩
  · intro none
    -- Whatever the word led to would be a step at its place, and a path would have put it there.
    refine List.eq_nil_iff_forall_not_mem.mpr fun node member => none (present.mp ?_)
    have here : graph.forest.At node place := (links.mem_follow root).mp member
    obtain ⟨number, step, rfl, found⟩ := Forest.step_of_at nonempty here
    exact ⟨number, step, here, found, trivial⟩

end

/-! A plan in which the leaf of a type assertion and the last step of another path share a step. -/

def groupTypes : Hierarchy := Hierarchy.empty.addSubtype "Author" "Person"

def memberEntry : PlanEntry where
  context := "query"
  pattern := ⟨.variable "x", .iri Rdf.Vocabulary.rdfType, .iri "Person"⟩
  check := some true
  cycles := [⟨"c", [⟨"knows", "Person"⟩]⟩]
  paths := [⟨[⟨"member", "Person"⟩], ["group"], some true⟩]

def nameEntry : PlanEntry where
  context := "query"
  pattern := ⟨.variable "x", .iri "name", .variable "n"⟩
  check := none
  cycles := []
  paths := [⟨[⟨"member", "Person"⟩, ⟨"name", "Name"⟩], ["group"], none⟩]

def groupPlan : Plan := ⟨∅, [memberEntry, nameEntry]⟩

def groupTree : SearchTree where
  fingerprint := fingerprint ["group"]
  fromTypes := .ofList ["Person"]
  seeds := .ofList ["group"]
  length := 3
  cycles := .ofList ["c"]
  patterns := ∅
  children := [0]

def groupGraph : Graph where
  prefixes := ∅
  spaces := [⟨"query", 0⟩, ⟨"query", 1⟩]
  patterns := [⟨memberEntry.pattern, some true⟩, ⟨nameEntry.pattern, none⟩]
  forest :=
    { trees := [groupTree]
      steps :=
        [⟨.tree 0, .property "member", .ofList ["Person"], ∅, none, ∅, [1]⟩,
          ⟨.step 0, .leaf, .ofList ["Name", "Person"], .ofList [0, 1], some true, ∅, []⟩] }
  cycles := .ofList [("c", ⟨.ofList ["Author", "Person"], [⟨"knows", "Person"⟩]⟩)]

theorem initialGraph_groupPlan : groupPlan.initialGraph groupTypes = .ok groupGraph := by
  decide +kernel

theorem forest_is_trie_at_shared_leaf :
    groupPlan.initialGraph groupTypes = .ok groupGraph ∧
      groupGraph.forest.trees[0]? = some groupTree ∧
      ([.property "member", .leaf] : List StepLabel) ≠ [] ∧
      ∃ (number : StepId) (step : Step),
        groupGraph.forest.follow (.tree 0) [.property "member", .leaf] = [.step number] ∧
        groupGraph.forest.steps[number]? = some step ∧
        groupPlan.Explains groupGraph groupTree.fingerprint [.property "member", .leaf] step := by
  have planted : groupGraph.forest.trees[0]? = some groupTree := rfl
  refine ⟨initialGraph_groupPlan, planted, by simp, ?_⟩
  have passes : groupPlan.Passes groupTree.fingerprint [.property "member", .leaf] nameEntry.pattern
      ⟨[⟨"member", "Person"⟩, ⟨"name", "Name"⟩], ["group"], none⟩ :=
    ⟨⟨nameEntry, by simp [groupPlan], rfl, List.mem_cons_self, by decide⟩, rfl, by decide⟩
  exact (forest_is_trie initialGraph_groupPlan planted (by simp)).1 ⟨_, _, passes⟩

end PlanGraph
