import PlanGraph.Proofs.Graph.Compilation
import PlanGraph.Proofs.Graph.Narrowing
import PlanGraph.Proofs.Hierarchy.Declarations

/-! Where the IRIs of a graph come from. Compilation makes no IRIs of its own: each is one of the plan, or
a type that the hierarchy knows. -/

set_option autoImplicit false
namespace PlanGraph

/-! ## The IRIs of a plan -/

def PatternTerm.iris : PatternTerm → List Iri
  | .fixed (.iri name) => [name]
  | .fixed (.literal (.typed _ datatype)) => [datatype]
  | _ => []

def Predicate.iris : Predicate → List Iri
  | .iri name => [name]
  | .variable _ => []

def TriplePattern.iris (pattern : TriplePattern) : List Iri :=
  pattern.subject.iris ++ pattern.predicate.iris ++ pattern.object.iris

def PathStep.iris (step : PathStep) : List Iri := [step.property, step.type]

def PlannedCycle.iris (cycle : PlannedCycle) : List Iri := cycle.steps.flatMap PathStep.iris

def PlannedPath.iris (path : PlannedPath) : List Iri := path.steps.flatMap PathStep.iris ++ path.seeds

def PlanEntry.iris (entry : PlanEntry) : List Iri :=
  entry.pattern.iris ++ entry.cycles.flatMap PlannedCycle.iris ++ entry.paths.flatMap PlannedPath.iris

def Plan.iris (plan : Plan) : List Iri := plan.entries.flatMap PlanEntry.iris

/-! ## The IRIs of a graph -/

inductive Graph.Names (graph : Graph) (name : Iri) : Prop
  | pattern {node : PatternNode} (member : node ∈ graph.patterns) (uses : name ∈ node.pattern.iris)
  | source {tree : SearchTree} (member : tree ∈ graph.forest.trees) (uses : name ∈ tree.fromTypes)
  | seed {tree : SearchTree} (member : tree ∈ graph.forest.trees) (uses : name ∈ tree.seeds)
  | property {step : Step} (member : step ∈ graph.forest.steps) (uses : step.label = .property name)
  | expected {step : Step} (member : step ∈ graph.forest.steps) (uses : name ∈ step.types)
  | start {id : CycleId} {cycle : Cycle} (found : graph.cycles.find? id = some cycle)
      (uses : name ∈ cycle.types)
  | chain {id : CycleId} {cycle : Cycle} (found : graph.cycles.find? id = some cycle)
      (uses : name ∈ cycle.steps.flatMap PathStep.iris)

section
variable {plan : Plan} {hierarchy : Hierarchy} {roots : Roots} {initial graph : Graph} {name : Iri}

theorem PatternTerm.mem_iris_of_iri? {term : PatternTerm} (found : term.iri? = some name) :
    name ∈ term.iris := by
  unfold PatternTerm.iri? at found
  split at found
  · cases found
    exact List.mem_singleton_self name
  · cases found

theorem TriplePattern.mem_iris_of_subject {pattern : TriplePattern} (found : pattern.subject.iri? = some name) :
    name ∈ pattern.iris :=
  List.mem_append_left _ (List.mem_append_left _ (PatternTerm.mem_iris_of_iri? found))

theorem TriplePattern.mem_iris_of_object {pattern : TriplePattern} (found : pattern.object.iri? = some name) :
    name ∈ pattern.iris := List.mem_append_right _ (PatternTerm.mem_iris_of_iri? found)

theorem TriplePattern.mem_iris_of_assertedType? {pattern : TriplePattern}
    (asserts : pattern.assertedType? = some name) : name ∈ pattern.iris := by
  unfold assertedType? at asserts
  split at asserts
  · exact mem_iris_of_object asserts
  · cases asserts

theorem PlanEntry.mem_iris_of_pattern {entry : PlanEntry} (uses : name ∈ entry.pattern.iris) :
    name ∈ entry.iris := List.mem_append_left _ (List.mem_append_left _ uses)

theorem PlanEntry.mem_iris_of_path {entry : PlanEntry} {path : PlannedPath} (member : path ∈ entry.paths)
    (uses : name ∈ path.iris) : name ∈ entry.iris :=
  List.mem_append_right _ (List.mem_flatMap.mpr ⟨path, member, uses⟩)

theorem Plan.mem_iris_of_entry {entry : PlanEntry} (member : entry ∈ plan.entries)
    (uses : name ∈ entry.iris) : name ∈ plan.iris := List.mem_flatMap.mpr ⟨entry, member, uses⟩

theorem exists_path_of_inclusion {cycles : OrderedMap CycleId Cycle} {inclusion : Inclusion}
    (member : inclusion ∈ inclusions plan.entries cycles) : ∃ entry ∈ plan.entries,
      inclusion.pattern = entry.pattern ∧ inclusion.path ∈ entry.paths ∧
        inclusion.path.startingType? entry.pattern = some inclusion.fromType := by
  obtain ⟨entry, inside, member⟩ := List.mem_flatMap.mp member
  obtain ⟨⟨path, type⟩, included, rfl⟩ := List.mem_map.mp member
  obtain ⟨listed, starts⟩ := PlanEntry.mem_includedPaths.mp included
  exact ⟨entry, inside, rfl, listed, starts⟩

structure Inclusion.Within (plan : Plan) (inclusion : Inclusion) : Prop where
  source : inclusion.fromType ∈ plan.iris
  seeds : ∀ seed ∈ inclusion.path.seeds, seed ∈ plan.iris
  types : ∀ type ∈ inclusion.types, type ∈ plan.iris
  properties : ∀ property, .property property ∈ inclusion.labels → property ∈ plan.iris

theorem PlannedPath.exists_step_of_label {path : PlannedPath} {pattern : TriplePattern} {property : Iri}
    (passed : .property property ∈ path.labels pattern) : ∃ step ∈ path.steps, step.property = property := by
  have along {labels : List StepLabel}
      (within : labels ⊆ path.steps.map fun step => StepLabel.property step.property)
      (passed : .property property ∈ labels ++ [.leaf]) : ∃ step ∈ path.steps, step.property = property := by
    rcases List.mem_append.mp passed with inside | last
    · obtain ⟨step, member, same⟩ := List.mem_map.mp (within inside)
      exact ⟨step, member, StepLabel.property.inj same⟩
    · cases List.mem_singleton.mp last
  unfold labels at passed
  dsimp only at passed
  split at passed
  · exact along (List.Subset.refl _) passed
  · split at passed
    · cases passed
    · exact along (List.dropLast_subset _) passed

theorem Inclusion.within {cycles : OrderedMap CycleId Cycle} {inclusion : Inclusion}
    (member : inclusion ∈ inclusions plan.entries cycles) : inclusion.Within plan := by
  obtain ⟨entry, inside, same, listed, starts⟩ := exists_path_of_inclusion member
  have patterned {name : Iri} (uses : name ∈ inclusion.pattern.iris) : name ∈ plan.iris :=
    Plan.mem_iris_of_entry inside (PlanEntry.mem_iris_of_pattern (same ▸ uses))
  have pathed {name : Iri} (uses : name ∈ inclusion.path.iris) : name ∈ plan.iris :=
    Plan.mem_iris_of_entry inside (PlanEntry.mem_iris_of_path listed uses)
  have stepped {step : PathStep} (along : step ∈ inclusion.path.steps) :
      step.property ∈ plan.iris ∧ step.type ∈ plan.iris := by
    have uses {name : Iri} (uses : name ∈ step.iris) : name ∈ plan.iris :=
      pathed (List.mem_append_left _ (List.mem_flatMap.mpr ⟨step, along, uses⟩))
    exact ⟨uses (by simp [PathStep.iris]), uses (by simp [PathStep.iris])⟩
  constructor
  · unfold PlannedPath.startingType? at starts
    split at starts
    · rename_i step rest steps
      exact Option.some.inj starts ▸ (stepped (steps ▸ List.mem_cons_self)).2
    · split at starts
      · cases starts
      · exact patterned (same ▸ TriplePattern.mem_iris_of_object starts)
  · exact fun seed given => pathed (List.mem_append_right _ given)
  · intro type declared
    rcases List.mem_append.mp declared with listed | asserted
    · obtain ⟨step, along, rfl⟩ := List.mem_map.mp listed
      exact (stepped along).2
    · exact patterned (TriplePattern.mem_iris_of_assertedType? (Option.mem_toList.mp asserted))
  · intro property passed
    obtain ⟨step, along, rfl⟩ := PlannedPath.exists_step_of_label passed
    exact (stepped along).1

theorem mem_iris_of_request {request : CycleRequest} (member : request ∈ cycleRequests plan.entries) :
    ∀ name ∈ request.2.flatMap PathStep.iris, name ∈ plan.iris := by
  intro name uses
  obtain ⟨entry, inside, asked⟩ := List.mem_flatMap.mp member
  unfold PlanEntry.cycleRequests at asked
  split at asked
  · cases asked
  · obtain ⟨cycle, listed, asked⟩ := List.mem_flatMap.mp asked
    -- A reversed cycle has the same steps.
    have cycled : name ∈ cycle.iris := by
      rcases List.mem_cons.mp asked with rfl | reversed
      · exact uses
      · split at reversed
        · cases reversed
        · cases List.mem_singleton.mp reversed
          obtain ⟨step, along, inStep⟩ := List.mem_flatMap.mp uses
          exact List.mem_flatMap.mpr ⟨step, List.mem_reverse.mp along, inStep⟩
    exact Plan.mem_iris_of_entry inside (List.mem_append_left _ (List.mem_append_right _
      (List.mem_flatMap.mpr ⟨cycle, listed, cycled⟩)))

theorem Plan.Initial.names (represents : plan.Initial hierarchy initial) (closed : hierarchy.Closed)
    (names : initial.Names name) : name ∈ plan.iris ∨ hierarchy.contains name = true := by
  cases names with
  | pattern member uses =>
    have patterned := List.mem_map_of_mem (f := PatternNode.pattern) member
    rw [represents.patterns, patterns_registered] at patterned
    obtain ⟨hint, requested⟩ := mem_requestedPatterns.mp patterned
    obtain ⟨entry, inside, same⟩ := List.mem_map.mp requested
    rw [← (Prod.mk.inj same).1] at uses
    exact Or.inl (Plan.mem_iris_of_entry inside (PlanEntry.mem_iris_of_pattern uses))
  | source member uses =>
    obtain ⟨inclusion, listed, _, rfl⟩ := (represents.madeOf.tree_carries_iff member (.source name)).mp uses
    exact Or.inl (Inclusion.within listed).source
  | seed member uses =>
    obtain ⟨inclusion, listed, _, given⟩ := (represents.madeOf.tree_carries_iff member (.seed name)).mp uses
    exact Or.inl ((Inclusion.within listed).seeds name given)
  | property member uses =>
    obtain ⟨id, found⟩ := List.getElem?_of_mem member
    -- A step is there only for an inclusion that passes it.
    obtain ⟨above, _, inclusion, listed, _, short⟩ := represents.madeOf.exists_passing found
    have passed := short.subset (List.mem_append_right above.word (List.mem_singleton_self _))
    exact Or.inl ((Inclusion.within listed).properties name (uses ▸ passed))
  | expected member uses =>
    obtain ⟨id, found⟩ := List.getElem?_of_mem member
    obtain ⟨above, here, _⟩ := represents.madeOf.exists_passing found
    obtain ⟨inclusion, listed, _, _, _, declared⟩ :=
      (represents.madeOf.carries_iff here found (.type name)).mp uses
    exact Or.inl ((Inclusion.within listed).types name (List.mem_of_getElem? declared))
  | start found uses =>
    rw [represents.cycles] at found
    obtain ⟨steps, asked, described⟩ := Option.bind_eq_some_iff.mp found
    obtain ⟨first, rest, rfl, known, rfl⟩ := Hierarchy.cycle?_eq_some.mp described
    exact Or.inr (closed.contains_below known uses)
  | chain found uses =>
    rw [represents.cycles] at found
    obtain ⟨steps, asked, described⟩ := Option.bind_eq_some_iff.mp found
    obtain ⟨first, rest, rfl, _, rfl⟩ := Hierarchy.cycle?_eq_some.mp described
    exact Or.inl (mem_iris_of_request (mem_of_lookup_eq_some asked) name uses)

theorem Graph.names_of_gainedSeeds {tree : SearchTree} (gained : name ∈ graph.gainedSeeds tree) :
    graph.Names name := by
  obtain ⟨child, _, gained⟩ := List.mem_flatMap.mp gained
  cases found : graph.forest.steps[child]? with
  | none => simp [found] at gained
  | some step =>
    rw [found] at gained
    obtain ⟨id, _, subject⟩ := List.mem_filterMap.mp gained
    obtain ⟨node, there, subject⟩ := Option.bind_eq_some_iff.mp subject
    exact .pattern (List.mem_of_getElem? there) (TriplePattern.mem_iris_of_subject subject)

/-- Compilation adds subtypes of known types to steps, and subjects of patterns to seeds. -/
theorem Graph.names_of_compiled {graph : Graph} (closed : hierarchy.Closed)
    (known : graph.Known hierarchy roots)
    (names : (graph.compiled hierarchy roots).Names name) :
    graph.Names name ∨ hierarchy.contains name = true := by
  cases names with
  | pattern member uses => exact Or.inl (.pattern member uses)
  | source member uses =>
    rw [Graph.compiled_trees] at member
    obtain ⟨tree, inside, rfl⟩ := List.mem_map.mp member
    exact Or.inl (.source inside (Hierarchy.mem_of_mem_specific uses))
  | seed member uses =>
    rw [Graph.compiled_trees] at member
    obtain ⟨tree, inside, rfl⟩ := List.mem_map.mp member
    rcases Graph.mem_seeds_compiledTree.mp uses with gained | before
    · exact Or.inl (Graph.names_of_gainedSeeds gained)
    · exact Or.inl (.seed inside before)
  | property member uses =>
    rw [Graph.compiled_steps] at member
    obtain ⟨step, inside, rfl⟩ := List.mem_map.mp member
    have label := congrArg Step.label (graph.compiledStep_others hierarchy roots step)
    exact Or.inl (.property inside (label.symm.trans uses))
  -- Only steps gain types, and these are subtypes of known ones.
  | expected member uses =>
    rw [Graph.compiled_steps] at member
    obtain ⟨step, inside, rfl⟩ := List.mem_map.mp member
    rcases Graph.mem_types_compiledStep.mp uses with before | ⟨eligible, asserted, near, below⟩
    · exact Or.inl (.expected inside before)
    · exact Or.inr (closed.contains_below (known.asserted step inside eligible asserted near) below)
  | start found uses => exact Or.inl (.start (Graph.find?_spread.mp found).1 uses)
  | chain found uses => exact Or.inl (.chain (Graph.find?_spread.mp found).1 uses)

theorem Plan.names_of_compile (declared : hierarchy.Declared)
    (compiled : plan.compile hierarchy roots = .ok graph) (names : graph.Names name) :
    name ∈ plan.iris ∨ hierarchy.contains name = true := by
  obtain ⟨initial, built, known, rfl⟩ := Graph.compile_eq_ok_iff.mp compiled
  rcases Graph.names_of_compiled declared.closed known names with before | type
  · exact (Plan.Initial.of_ok built).2.names declared.closed before
  · exact Or.inr type

end
end PlanGraph
