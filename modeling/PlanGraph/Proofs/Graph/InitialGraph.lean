import PlanGraph.Proofs.Graph.CycleBook
import PlanGraph.Proofs.Graph.Entries
import PlanGraph.Proofs.Graph.Nursery
import PlanGraph.Proofs.Graph.Registry
import PlanGraph.Proofs.Graph.Shape

/-! The initial graph of a plan, said without the builder: the patterns that the entries request, the
cycles that entries with paths request, and a forest that took all these paths in. The graph exists
exactly if every first request of a cycle can be met. -/

set_option autoImplicit false
namespace PlanGraph

section
variable {entries more : List PlanEntry} {pattern : TriplePattern}

def patternRequests (entries : List PlanEntry) : List PatternRequest :=
  entries.map fun entry => (entry.pattern, entry.checkHint)

def numberOf (entries : List PlanEntry) (pattern : TriplePattern) : PatternId :=
  (requestedPatterns (patternRequests entries)).idxOf pattern

def cycleRequests (entries : List PlanEntry) : List CycleRequest :=
  entries.flatMap PlanEntry.cycleRequests

def PlanEntry.describedCycles (entry : PlanEntry) (cycles : OrderedMap CycleId Cycle) :
    OrderedSet CycleId :=
  .ofList ((entry.cycleRequests.map Prod.fst).filter cycles.contains)

def PlanEntry.inclusions (entry : PlanEntry) (cycles : OrderedMap CycleId Cycle) : List Inclusion :=
  entry.includedPaths.map fun found => ⟨entry.pattern, found.1, found.2, entry.describedCycles cycles⟩

def inclusions (entries : List PlanEntry) (cycles : OrderedMap CycleId Cycle) : List Inclusion :=
  entries.flatMap (·.inclusions cycles)

def PlanEntry.inclusionsThrough (entry : PlanEntry) (cycles : List CycleId) : List Inclusion :=
  entry.includedPaths.map fun found => ⟨entry.pattern, found.1, found.2, .ofList cycles⟩

theorem PlanEntry.plantAll_ofForest {forest : Forest} (links : forest.Linked) (entry : PlanEntry)
    (number : TriplePattern → PatternId) (cycles : List CycleId) :
    entry.plantAll (number entry.pattern) cycles (.ofForest forest) =
      .ofForest ((entry.inclusionsThrough cycles).foldl
        (fun forest inclusion => forest.takeIn (number inclusion.pattern) inclusion) forest) := by
  unfold plantAll inclusionsThrough
  -- Every path leaves links that fit, and the tables of the next one are good for such a forest only.
  induction entry.includedPaths generalizing forest with
  | nil => rfl
  | cons found rest ih =>
    obtain ⟨included, kept⟩ := Nursery.includePath_ofForest links (number entry.pattern) entry.pattern
      cycles found.1 found.2
    have taken : forest.includePath (number entry.pattern) entry.pattern cycles found.1 found.2 =
        forest.takeIn (number entry.pattern) ⟨entry.pattern, found.1, found.2, .ofList cycles⟩ :=
      forest.includePath_eq_takeIn _ ⟨entry.pattern, found.1, found.2, _⟩
        fun cycle => OrderedSet.mem_ofList.symm
    rw [taken] at included kept
    rw [List.foldl_cons, included, ih kept]
    rfl

theorem PlanEntry.mem_includedPaths {entry : PlanEntry} {path : PlannedPath} {type : Iri} :
    (path, type) ∈ entry.includedPaths ↔
      path ∈ entry.paths ∧ path.startingType? entry.pattern = some type := by
  unfold includedPaths
  simp only [List.mem_filterMap, Option.map_eq_some_iff, Prod.mk.injEq]
  constructor
  · rintro ⟨other, member, start, starts, rfl, rfl⟩
    exact ⟨member, starts⟩
  · rintro ⟨member, starts⟩
    exact ⟨path, member, type, starts, rfl, rfl⟩

theorem mem_inclusions_of_included {entry : PlanEntry} {path : PlannedPath} {type : Iri}
    (inside : entry ∈ entries) (included : (path, type) ∈ entry.includedPaths)
    (cycles : OrderedMap CycleId Cycle) :
    ⟨entry.pattern, path, type, entry.describedCycles cycles⟩ ∈ inclusions entries cycles :=
  List.mem_flatMap.mpr ⟨entry, inside, List.mem_map.mpr ⟨_, included, rfl⟩⟩

theorem mem_requested (member : pattern ∈ entries.map PlanEntry.pattern) :
    pattern ∈ requestedPatterns (patternRequests entries) := by
  obtain ⟨entry, inside, rfl⟩ := List.mem_map.mp member
  exact mem_requestedPatterns.mpr ⟨entry.checkHint, List.mem_map.mpr ⟨entry, inside, rfl⟩⟩

theorem patternRequests_append :
    patternRequests (entries ++ more) = patternRequests entries ++ patternRequests more :=
  List.map_append

theorem cycleRequests_append :
    cycleRequests (entries ++ more) = cycleRequests entries ++ cycleRequests more :=
  List.flatMap_append

theorem inclusions_append (cycles : OrderedMap CycleId Cycle) :
    inclusions (entries ++ more) cycles = inclusions entries cycles ++ inclusions more cycles :=
  List.flatMap_append

theorem numberOf_append (member : pattern ∈ entries.map PlanEntry.pattern) :
    numberOf (entries ++ more) pattern = numberOf entries pattern := by
  obtain ⟨later, whole⟩ := requestedPatterns_prefix (patternRequests entries) (patternRequests more)
  rw [numberOf, patternRequests_append, ← whole, List.idxOf_append_of_mem (mem_requested member)]
  rfl

/-- An entry that was seen before asks for no new pattern, and for no new hint. -/
theorem registry_again {entry : PlanEntry} (seen : entry ∈ entries) :
    PatternRegistry.ofRequests (patternRequests (entries ++ [entry])) =
      .ofRequests (patternRequests entries) := by
  rw [patternRequests_append]
  exact PatternRegistry.ofRequests_again (List.mem_map.mpr ⟨entry, seen, rfl⟩)

theorem numberOf_again {entry : PlanEntry} (seen : entry ∈ entries) :
    numberOf (entries ++ [entry]) = numberOf entries := by
  have nodes := congrArg PatternRegistry.nodes (registry_again seen)
  have patterns := congrArg (List.map PatternNode.pattern) nodes
  simp only [PatternRegistry.ofRequests, patterns_registered] at patterns
  funext pattern
  rw [numberOf, numberOf, patterns]

theorem getElem?_numberOf (member : pattern ∈ entries.map PlanEntry.pattern) :
    (requestedPatterns (patternRequests entries))[numberOf entries pattern]? = some pattern := by
  have bound := List.idxOf_lt_length_of_mem (mem_requested member)
  rw [numberOf, List.getElem?_eq_getElem bound, List.getElem_idxOf]

theorem numberOf_lt (member : pattern ∈ entries.map PlanEntry.pattern) :
    numberOf entries pattern < (registered (patternRequests entries)).length := by
  rw [length_registered]
  exact (List.getElem?_eq_some_iff.mp (getElem?_numberOf member)).1

theorem spaces_concat (entry : PlanEntry) :
    (entries ++ [entry]).map (fun other =>
        (⟨other.context, numberOf (entries ++ [entry]) other.pattern⟩ : SearchSpace)) =
      entries.map (fun other => ⟨other.context, numberOf entries other.pattern⟩) ++
        [⟨entry.context, numberOf (entries ++ [entry]) entry.pattern⟩] := by
  rw [List.map_append, List.map_singleton]
  refine congrArg (· ++ _) (List.map_congr_left fun other member => ?_)
  rw [numberOf_append (List.mem_map_of_mem member)]

theorem pattern_of_mem_inclusions {cycles : OrderedMap CycleId Cycle} {inclusion : Inclusion}
    (member : inclusion ∈ inclusions entries cycles) :
    inclusion.pattern ∈ entries.map PlanEntry.pattern := by
  obtain ⟨entry, inside, member⟩ := List.mem_flatMap.mp member
  obtain ⟨_, _, rfl⟩ := List.mem_map.mp member
  exact List.mem_map.mpr ⟨entry, inside, rfl⟩

theorem ofInclusions_append {taken : List Inclusion} (entry : PlanEntry)
    (requested : ∀ inclusion ∈ taken, inclusion.pattern ∈ entries.map PlanEntry.pattern)
    (more : List Inclusion) :
    more.foldl
        (fun forest inclusion => forest.takeIn (numberOf (entries ++ [entry]) inclusion.pattern) inclusion)
        (Forest.ofInclusions (numberOf entries) taken) =
      Forest.ofInclusions (numberOf (entries ++ [entry])) (taken ++ more) := by
  -- The patterns of the earlier inclusions keep their numbers.
  have numbered : Forest.ofInclusions (numberOf (entries ++ [entry])) taken =
      Forest.ofInclusions (numberOf entries) taken :=
    ofInclusions_congr fun inclusion member => numberOf_append (requested inclusion member)
  rw [← numbered, Forest.ofInclusions, Forest.ofInclusions, List.foldl_append]

theorem PlanEntry.inclusions_congr {entry : PlanEntry} {cycles others : OrderedMap CycleId Cycle}
    (same : ∀ request ∈ entry.cycleRequests, others.contains request.1 = cycles.contains request.1) :
    entry.inclusions others = entry.inclusions cycles := by
  have described : entry.describedCycles others = entry.describedCycles cycles := by
    refine congrArg OrderedSet.ofList (List.filter_congr fun id member => ?_)
    obtain ⟨request, requested, rfl⟩ := List.mem_map.mp member
    exact same request requested
  unfold inclusions
  rw [described]

theorem inclusions_congr {cycles others : OrderedMap CycleId Cycle}
    (same : ∀ request ∈ cycleRequests entries, others.contains request.1 = cycles.contains request.1) :
    inclusions entries others = inclusions entries cycles := by
  refine List.flatMap_congr fun entry inside => PlanEntry.inclusions_congr fun request requested => ?_
  exact same request (List.mem_flatMap.mpr ⟨entry, inside, requested⟩)

end

/-- A builder that has taken in the entries seen so far. -/
structure Builder.Represents (hierarchy : Hierarchy) (prefixes : Prefixes) (builder : Builder)
    (seen : List PlanEntry) : Prop where
  prefixes : builder.prefixes = prefixes
  spaces : builder.spaces = seen.map fun entry => ⟨entry.context, numberOf seen entry.pattern⟩
  registry : builder.registry = .ofRequests (patternRequests seen)
  nursery : builder.nursery =
    .ofForest (.ofInclusions (numberOf seen) (inclusions seen builder.book.cycles))
  book : builder.book.Records hierarchy (cycleRequests seen)

/-- The tables of a builder agree with the patterns that were registered and with its forest. -/
structure Builder.Orderly (builder : Builder) (seen : List PlanEntry) (forest : Forest) : Prop where
  registry : builder.registry = .ofRequests (patternRequests seen)
  nursery : builder.nursery = .ofForest forest
  links : forest.Linked

theorem Builder.openSpace_eq {builder : Builder} {seen : List PlanEntry}
    (registry : builder.registry = .ofRequests (patternRequests seen)) (entry : PlanEntry) :
    builder.openSpace entry =
      ({ builder with
          spaces := builder.spaces ++ [⟨entry.context, numberOf (seen ++ [entry]) entry.pattern⟩]
          registry := .ofRequests (patternRequests (seen ++ [entry])) },
        numberOf (seen ++ [entry]) entry.pattern) := by
  unfold openSpace
  rw [registry, PatternRegistry.register_ofRequests, numberOf, patternRequests_append]
  rfl

def Builder.taking (builder : Builder) (seen : List PlanEntry) (entry : PlanEntry) (book : CycleBook)
    (more : List Inclusion) : Builder where
  prefixes := builder.prefixes
  spaces := builder.spaces ++ [⟨entry.context, numberOf (seen ++ [entry]) entry.pattern⟩]
  registry := .ofRequests (patternRequests (seen ++ [entry]))
  nursery := .ofForest (more.foldl
    (fun forest inclusion => forest.takeIn (numberOf (seen ++ [entry]) inclusion.pattern) inclusion)
    builder.nursery.forest)
  book := book

theorem Builder.Orderly.addEntry_eq {hierarchy : Hierarchy} {builder : Builder} {seen : List PlanEntry}
    {forest : Forest} (orderly : builder.Orderly seen forest) (entry : PlanEntry) :
    builder.addEntry hierarchy entry =
      match builder.book.requestAll hierarchy entry.cycleRequests with
      | (book, .error error) => (builder.taking seen entry book [], some error)
      | (book, .ok cycles) => (builder.taking seen entry book (entry.inclusionsThrough cycles), none) := by
  unfold taking
  rw [Builder.addEntry_eq, openSpace_eq orderly.registry]
  dsimp only
  simp only [orderly.nursery, PlanEntry.plantAll_ofForest orderly.links]
  rfl

namespace Builder.Represents
variable {hierarchy : Hierarchy} {prefixes : Prefixes} {builder : Builder} {seen : List PlanEntry}

theorem orderly (represents : builder.Represents hierarchy prefixes seen) :
    builder.Orderly seen (.ofInclusions (numberOf seen) (inclusions seen builder.book.cycles)) :=
  ⟨represents.registry, represents.nursery, (Forest.madeOf_ofInclusions _ _).links⟩

theorem taking (represents : builder.Represents hierarchy prefixes seen) (entry : PlanEntry)
    {book : CycleBook} (later : book.Records hierarchy (cycleRequests (seen ++ [entry]))) :
    (builder.taking seen entry book (entry.inclusions book.cycles)).Represents hierarchy prefixes
      (seen ++ [entry]) where
  prefixes := represents.prefixes
  spaces := by
    rw [spaces_concat, ← represents.spaces]
    rfl
  registry := rfl
  nursery := by
    -- What is known of the cycles of earlier entries, and of their patterns, stays as it is.
    have described : inclusions seen book.cycles = inclusions seen builder.book.cycles := by
      rw [cycleRequests_append] at later
      refine inclusions_congr fun request member => ?_
      have asked := represents.book.asked_of_mem member
      rw [OrderedMap.contains, OrderedMap.contains, represents.book.find?_append later asked]
    have last : inclusions [entry] book.cycles = entry.inclusions book.cycles := by
      simp [inclusions]
    rw [Builder.taking, represents.nursery, inclusions_append, last, described]
    exact congrArg Nursery.ofForest
      (ofInclusions_append entry (fun _ member => pattern_of_mem_inclusions member) _)
  book := later

/-- An entry is taken in exactly if its first requests of cycles can be met. -/
theorem addEntry (represents : builder.Represents hierarchy prefixes seen)
    (met : hierarchy.CanMeet (cycleRequests seen)) (entry : PlanEntry) :
    (hierarchy.CanMeet (cycleRequests (seen ++ [entry])) ∧ ∃ next,
      next.Represents hierarchy prefixes (seen ++ [entry]) ∧
        builder.addEntry hierarchy entry = (next, none)) ∨
    (¬hierarchy.CanMeet (cycleRequests (seen ++ [entry])) ∧ ∃ next error,
      builder.addEntry hierarchy entry = (next, some error)) := by
  have requests : cycleRequests (seen ++ [entry]) = cycleRequests seen ++ entry.cycleRequests := by
    simp [cycleRequests]
  rw [represents.orderly.addEntry_eq]
  rcases CycleBook.requestAll_spec represents.book met entry.cycleRequests with
    ⟨reached, book, later, result⟩ | ⟨unreached, book, error, result⟩
  · rw [← requests] at reached later
    exact Or.inl ⟨reached, _, represents.taking entry later, by rw [result]; rfl⟩
  · rw [← requests] at unreached
    exact Or.inr ⟨unreached, _, error, by rw [result]⟩

end Builder.Represents

theorem Hierarchy.CanMeet.of_append {hierarchy : Hierarchy} {requests more : List CycleRequest}
    (met : hierarchy.CanMeet (requests ++ more)) : hierarchy.CanMeet requests := by
  intro id steps found
  refine met id steps ?_
  rw [List.lookup_append, found, Option.some_or]

theorem Builder.addEntries_spec {hierarchy : Hierarchy} {prefixes : Prefixes} {builder : Builder}
    {seen : List PlanEntry} (represents : builder.Represents hierarchy prefixes seen)
    (met : hierarchy.CanMeet (cycleRequests seen)) (rest : List PlanEntry) :
    (hierarchy.CanMeet (cycleRequests (seen ++ rest)) ∧ ∃ last,
      last.Represents hierarchy prefixes (seen ++ rest) ∧
        builder.addEntries hierarchy rest = .ok last) ∨
    (¬hierarchy.CanMeet (cycleRequests (seen ++ rest)) ∧ ∃ error,
      builder.addEntries hierarchy rest = .error error) := by
  induction rest generalizing builder seen with
  | nil => exact Or.inl ⟨by simpa using met, builder, by simpa using represents, rfl⟩
  | cons entry rest ih =>
    have grouped : seen ++ entry :: rest = seen ++ [entry] ++ rest := by simp
    rw [grouped, addEntries]
    rcases represents.addEntry met entry with ⟨reached, next, later, result⟩ | ⟨unreached, next, error, result⟩
    · rw [result]
      exact ih later reached
    · rw [result]
      refine Or.inr ⟨fun whole => unreached ?_, error, rfl⟩
      rw [cycleRequests_append] at whole
      exact whole.of_append

structure Plan.Initial (plan : Plan) (hierarchy : Hierarchy) (graph : Graph) : Prop where
  prefixes : graph.prefixes = plan.prefixes
  spaces : graph.spaces =
    plan.entries.map fun entry => ⟨entry.context, numberOf plan.entries entry.pattern⟩
  patterns : graph.patterns = registered (patternRequests plan.entries)
  forest : graph.forest = .ofInclusions (numberOf plan.entries) (inclusions plan.entries graph.cycles)
  cycles : ∀ id, graph.cycles.find? id = ((cycleRequests plan.entries).lookup id).bind hierarchy.cycle?

theorem initialGraph_spec (plan : Plan) (hierarchy : Hierarchy) :
    (hierarchy.CanMeet (cycleRequests plan.entries) ∧ ∃ graph, plan.Initial hierarchy graph ∧
      plan.initialGraph hierarchy = .ok graph) ∨
    (¬hierarchy.CanMeet (cycleRequests plan.entries) ∧ ∃ error,
      plan.initialGraph hierarchy = .error error) := by
  have start : (Builder.start plan.prefixes).Represents hierarchy plan.prefixes [] :=
    ⟨rfl, rfl, rfl, rfl, CycleBook.records_empty hierarchy⟩
  unfold Plan.initialGraph
  rcases Builder.addEntries_spec start (fun _ _ found => by cases found) plan.entries with
    ⟨reached, last, represents, result⟩ | ⟨unreached, error, result⟩
  · rw [List.nil_append] at reached represents
    refine Or.inl ⟨reached, last.graph, ?_, by rw [result]; rfl⟩
    exact ⟨represents.prefixes, represents.spaces, congrArg PatternRegistry.nodes represents.registry,
      congrArg Nursery.forest represents.nursery, represents.book.cycles⟩
  · rw [List.nil_append] at unreached
    exact Or.inr ⟨unreached, error, by rw [result]; rfl⟩

theorem Plan.Initial.of_ok {plan : Plan} {hierarchy : Hierarchy} {graph : Graph}
    (built : plan.initialGraph hierarchy = .ok graph) :
    hierarchy.CanMeet (cycleRequests plan.entries) ∧ plan.Initial hierarchy graph := by
  rcases initialGraph_spec plan hierarchy with ⟨met, other, initial, result⟩ | ⟨_, error, result⟩
  · rw [result] at built
    cases built
    exact ⟨met, initial⟩
  · rw [result] at built
    cases built

structure Graph.CyclesDescribed (graph : Graph) : Prop where
  trees : ∀ tree ∈ graph.forest.trees, ∀ id, id ∈ tree.cycles → graph.cycles.contains id = true
  steps : ∀ step ∈ graph.forest.steps, ∀ id, id ∈ step.cycleStarts → graph.cycles.contains id = true

theorem Graph.CyclesDescribed.of_madeOf {graph : Graph} {number : TriplePattern → PatternId}
    {inclusions : List Inclusion} (made : graph.forest.MadeOf number inclusions)
    (described : ∀ inclusion ∈ inclusions, ∀ id, id ∈ inclusion.cycles → graph.cycles.contains id = true) :
    graph.CyclesDescribed where
  trees := fun tree member id mentioned => by
    obtain ⟨inclusion, listed, _, through⟩ := (made.tree_carries_iff member (.cycle id)).mp mentioned
    exact described inclusion listed id through
  steps := fun step member id starts => by
    obtain ⟨number, found⟩ := List.getElem?_of_mem member
    exact absurd starts (made.no_starts found id)

namespace Plan.Initial
variable {plan : Plan} {hierarchy : Hierarchy} {graph : Graph}

theorem pattern? (initial : plan.Initial hierarchy graph) (id : PatternId) :
    graph.pattern? id = (requestedPatterns (patternRequests plan.entries))[id]? := by
  rw [Graph.pattern?, initial.patterns, ← List.getElem?_map, patterns_registered]

theorem pattern?_eq_some (initial : plan.Initial hierarchy graph) {id : PatternId}
    {pattern : TriplePattern} : graph.pattern? id = some pattern ↔
      pattern ∈ plan.entries.map PlanEntry.pattern ∧ id = numberOf plan.entries pattern := by
  rw [initial.pattern?]
  constructor
  · intro found
    obtain ⟨hint, requested⟩ := mem_requestedPatterns.mp (List.mem_of_getElem? found)
    obtain ⟨entry, member, same⟩ := List.mem_map.mp requested
    have known : pattern ∈ plan.entries.map PlanEntry.pattern :=
      List.mem_map.mpr ⟨entry, member, congrArg Prod.fst same⟩
    have bound := (List.getElem?_eq_some_iff.mp found).1
    exact ⟨known, (List.getElem?_inj bound (nodup_eraseDups _)).mp
      (found.trans (getElem?_numberOf known).symm)⟩
  · rintro ⟨known, rfl⟩
    exact getElem?_numberOf known

theorem develops (initial : plan.Initial hierarchy graph) {Pattern : Type}
    (name : PatternId → Option Pattern) (called : TriplePattern → Pattern)
    (named : ∀ pattern ∈ plan.entries.map PlanEntry.pattern,
      name (numberOf plan.entries pattern) = some (called pattern)) :
    Forest.Develops name .empty graph.forest fun mark =>
      ∃ inclusion ∈ inclusions plan.entries graph.cycles,
        inclusion.Leaves (called inclusion.pattern) mark := by
  rw [initial.forest]
  exact ofInclusions_develops _ fun inclusion member => named _ (pattern_of_mem_inclusions member)

theorem madeOf (initial : plan.Initial hierarchy graph) :
    graph.forest.MadeOf (numberOf plan.entries) (inclusions plan.entries graph.cycles) := by
  rw [initial.forest]
  exact Forest.madeOf_ofInclusions _ _

theorem links (initial : plan.Initial hierarchy graph) : graph.forest.Linked := initial.madeOf.links

theorem bears_iff (initial : plan.Initial hierarchy graph) {mark : Mark PatternId} :
    graph.forest.Bears some mark ↔ ∃ inclusion ∈ inclusions plan.entries graph.cycles,
      inclusion.Leaves (numberOf plan.entries inclusion.pattern) mark :=
  initial.madeOf.bears mark

theorem no_starts (initial : plan.Initial hierarchy graph) {id : StepId} {step : Step}
    (found : graph.forest.steps[id]? = some step) (cycle : CycleId) : ¬cycle ∈ step.cycleStarts :=
  initial.madeOf.no_starts found cycle

theorem cyclesDescribed (initial : plan.Initial hierarchy graph) : graph.CyclesDescribed := by
  refine .of_madeOf initial.madeOf fun inclusion listed id requested => ?_
  obtain ⟨entry, _, included⟩ := List.mem_flatMap.mp listed
  obtain ⟨_, _, rfl⟩ := List.mem_map.mp included
  exact (List.mem_filter.mp (OrderedSet.mem_ofList.mp requested)).2

end Plan.Initial
end PlanGraph
