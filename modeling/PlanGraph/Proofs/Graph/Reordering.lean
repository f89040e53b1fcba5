import PlanGraph.Proofs.Graph.Alike
import PlanGraph.Proofs.Graph.Lengths
import PlanGraph.Proofs.Graph.Siblings

/-! Plans that differ in their order. If equal identifiers ask for equal cycles and hints do not
contradict each other, both plans fail or both compile to the same graph up to numbers. -/

set_option autoImplicit false
namespace PlanGraph

structure PlanEntry.Reordered (first second : PlanEntry) : Prop where
  context : first.context = second.context
  pattern : first.pattern = second.pattern
  check : first.check = second.check
  cycles : first.cycles.Perm second.cycles
  paths : first.paths.Perm second.paths

def Plan.Reordered (first second : Plan) : Prop :=
  first.prefixes = second.prefixes ∧ ∃ entries, first.entries.Perm entries ∧
    List.Forall₂ PlanEntry.Reordered entries second.entries

/-- Requests of one identifier ask for the same steps. -/
def ConsistentCycles (requests : List CycleRequest) : Prop :=
  ∀ request ∈ requests, ∀ other ∈ requests, request.1 = other.1 → request.2 = other.2

/-- Entries of one type pattern do not ask to check it and not to check it. -/
def ConsistentHints (entries : List PlanEntry) : Prop :=
  ∀ entry ∈ entries, ∀ other ∈ entries, entry.pattern = other.pattern →
    entry.pattern.isTypePattern = true → ¬(entry.check = some true ∧ other.check = some false)

section
variable {α : Type} {first second : Plan}

theorem Plan.Reordered.flatMap_perm (reordered : first.Reordered second) {view : PlanEntry → List α}
    (each : ∀ entry other, entry.Reordered other → (view entry).Perm (view other)) :
    (first.entries.flatMap view).Perm (second.entries.flatMap view) := by
  obtain ⟨_, entries, permuted, inner⟩ := reordered
  -- First the entries change places, then each of them changes inside.
  refine (permuted.flatMap_right view).trans ?_
  clear permuted
  generalize second.entries = others at inner
  induction inner with
  | nil => exact .refl _
  | cons pair _ ih =>
    rw [List.flatMap_cons, List.flatMap_cons]
    exact (each _ _ pair).append ih

theorem Plan.Reordered.map_perm (reordered : first.Reordered second) {view : PlanEntry → α}
    (each : ∀ entry other, entry.Reordered other → view entry = view other) :
    (first.entries.map view).Perm (second.entries.map view) := by
  rw [List.map_eq_flatMap, List.map_eq_flatMap]
  refine reordered.flatMap_perm fun entry other pair => ?_
  rw [each entry other pair]

end

namespace PlanEntry.Reordered
variable {first second : PlanEntry}

theorem includedPaths_perm (pair : first.Reordered second) :
    first.includedPaths.Perm second.includedPaths := by
  unfold includedPaths
  rw [pair.pattern]
  exact pair.paths.filterMap _

theorem cycleRequests_perm (pair : first.Reordered second) :
    first.cycleRequests.Perm second.cycleRequests := by
  unfold cycleRequests
  have empty : first.includedPaths = [] ↔ second.includedPaths = [] :=
    ⟨fun none => (none ▸ pair.includedPaths_perm).nil_eq.symm,
      fun none => (none ▸ pair.includedPaths_perm).eq_nil⟩
  simp only [empty]
  split
  · exact .refl _
  · exact pair.cycles.flatMap_right _

theorem inclusions_perm (pair : first.Reordered second) (cycles : OrderedMap CycleId Cycle) :
    (first.inclusions cycles).Perm (second.inclusions cycles) := by
  have described : first.describedCycles cycles = second.describedCycles cycles := by
    refine OrderedSet.ext fun id => ?_
    unfold describedCycles
    rw [OrderedSet.mem_ofList, OrderedSet.mem_ofList]
    exact ((pair.cycleRequests_perm.map _).filter _).mem_iff
  unfold inclusions
  rw [pair.pattern, described]
  exact pair.includedPaths_perm.map _

theorem checkHint_eq (pair : first.Reordered second) : first.checkHint = second.checkHint := by
  unfold checkHint
  rw [pair.pattern, pair.check]

end PlanEntry.Reordered

section
variable {requests others : List CycleRequest} {hierarchy : Hierarchy}

theorem ConsistentCycles.lookup_eq_some (consistent : ConsistentCycles requests) {id : CycleId}
    {steps : List PathStep} : requests.lookup id = some steps ↔ (id, steps) ∈ requests := by
  refine ⟨mem_of_lookup_eq_some, fun member => ?_⟩
  have asked : (requests.lookup id).isSome = true :=
    List.lookup_isSome_iff.mpr ⟨(id, steps), member, by simp⟩
  obtain ⟨found, there⟩ := Option.isSome_iff_exists.mp asked
  have same : found = steps := consistent _ (mem_of_lookup_eq_some there) _ member rfl
  rw [there, same]

theorem ConsistentCycles.lookup_perm (consistent : ConsistentCycles requests)
    (reordered : requests.Perm others) (id : CycleId) : requests.lookup id = others.lookup id := by
  have consistentOthers : ConsistentCycles others := fun request member other also =>
    consistent request (reordered.mem_iff.mpr member) other (reordered.mem_iff.mpr also)
  refine Option.ext fun steps => ?_
  rw [consistent.lookup_eq_some, consistentOthers.lookup_eq_some, reordered.mem_iff]

end

def Unanimous (requests : List PatternRequest) : Prop :=
  ∀ pattern hint other, (pattern, some hint) ∈ requests → (pattern, some other) ∈ requests → hint = other

theorem ConsistentHints.unanimous {entries : List PlanEntry} (consistent : ConsistentHints entries) :
    Unanimous (patternRequests entries) := by
  -- A hint that is kept comes from an entry whose pattern has a type.
  have given {pattern : TriplePattern} {hint : Bool}
      (member : (pattern, some hint) ∈ patternRequests entries) : ∃ entry ∈ entries,
        entry.pattern = pattern ∧ pattern.isTypePattern = true ∧ entry.check = some hint := by
    obtain ⟨entry, inside, same⟩ := List.mem_map.mp member
    obtain ⟨rfl, hinted⟩ := Prod.mk.inj same
    unfold PlanEntry.checkHint at hinted
    split at hinted
    · next typed => exact ⟨entry, inside, rfl, typed, hinted⟩
    · cases hinted
  intro pattern hint other first second
  obtain ⟨entry, inside, rfl, typed, check⟩ := given first
  obtain ⟨otherEntry, otherInside, same, _, otherCheck⟩ := given second
  cases hint <;> cases other
  · rfl
  · exact absurd ⟨otherCheck, check⟩
      (consistent otherEntry otherInside entry inside same (same ▸ typed))
  · exact absurd ⟨check, otherCheck⟩
      (consistent entry inside otherEntry otherInside same.symm typed)
  · rfl

section
variable {requests others : List PatternRequest}

theorem Unanimous.firstHint_eq_some (unanimous : Unanimous requests) {pattern : TriplePattern}
    {hint : Bool} : firstHint requests pattern = some hint ↔ (pattern, some hint) ∈ requests := by
  have listed {hint : Bool} (found : firstHint requests pattern = some hint) :
      (pattern, some hint) ∈ requests := by
    obtain ⟨⟨other, given⟩, member, chosen⟩ := List.exists_of_findSome?_eq_some found
    dsimp only at chosen
    split at chosen
    · next same => exact chosen ▸ same ▸ member
    · cases chosen
  refine ⟨listed, fun member => ?_⟩
  cases found : firstHint requests pattern with
  | some other => rw [unanimous pattern hint other member (listed found)]
  | none =>
    have silent := List.findSome?_eq_none_iff.mp found _ member
    simp at silent

theorem Unanimous.registered_perm (unanimous : Unanimous requests) (reordered : requests.Perm others) :
    (registered requests).Perm (registered others) := by
  have also : Unanimous others := fun pattern hint other first second =>
    unanimous pattern hint other (reordered.mem_iff.mpr first) (reordered.mem_iff.mpr second)
  have hints (pattern : TriplePattern) : firstHint requests pattern = firstHint others pattern :=
    Option.ext fun hint => by
      rw [unanimous.firstHint_eq_some, also.firstHint_eq_some, reordered.mem_iff]
  have listed (pattern : TriplePattern) :
      pattern ∈ requestedPatterns requests ↔ pattern ∈ requestedPatterns others := by
    simp only [mem_requestedPatterns, reordered.mem_iff]
  -- Neither list repeats a pattern, so it is enough that both have the same ones.
  have patterns : (requestedPatterns requests).Perm (requestedPatterns others) :=
    (List.perm_ext_iff_of_nodup (nodup_eraseDups _) (nodup_eraseDups _)).mpr listed
  unfold registered
  simp only [hints]
  exact patterns.map _

end

section
variable {first second : Plan} {hierarchy : Hierarchy} {graph other : Graph}

theorem Plan.Reordered.patternRequests_perm (reordered : first.Reordered second) :
    (patternRequests first.entries).Perm (patternRequests second.entries) :=
  reordered.map_perm fun entry other pair => by rw [pair.pattern, pair.checkHint_eq]

theorem Plan.Reordered.cycleRequests_perm (reordered : first.Reordered second) :
    (cycleRequests first.entries).Perm (cycleRequests second.entries) :=
  reordered.flatMap_perm fun _ _ pair => pair.cycleRequests_perm

theorem Plan.Reordered.inclusions_perm (reordered : first.Reordered second)
    (cycles : OrderedMap CycleId Cycle) :
    (inclusions first.entries cycles).Perm (inclusions second.entries cycles) :=
  reordered.flatMap_perm fun _ _ pair => pair.inclusions_perm cycles

theorem Plan.Initial.sound (initial : first.Initial hierarchy graph) : graph.Sound where
  links := initial.links
  named := fun step member id serves => by
    obtain ⟨number, found⟩ := List.getElem?_of_mem member
    exact initial.pattern_of_serves found serves

theorem Plan.Initial.bears_terms_iff (initial : first.Initial hierarchy graph)
    (mark : Mark TriplePattern) : graph.forest.Bears graph.pattern? mark ↔
      ∃ inclusion ∈ inclusions first.entries graph.cycles, inclusion.Leaves inclusion.pattern mark := by
  have develops := initial.develops graph.pattern? id fun pattern known =>
    initial.pattern?_eq_some.mpr ⟨known, rfl⟩
  rw [develops.gains mark]
  exact or_iff_right (Forest.not_bears_empty mark)

theorem Plan.Initial.length_eq (initial : first.Initial hierarchy graph) {tree : SearchTree}
    (member : tree ∈ graph.forest.trees) :
    tree.length = totalLength (inclusions first.entries graph.cycles) tree.fingerprint := by
  have listed : (tree.fingerprint, tree.length) ∈ graph.forest.lengths :=
    List.mem_map.mpr ⟨tree, member, rfl⟩
  rw [initial.forest] at listed
  exact length_ofInclusions _ listed

theorem Plan.Initial.alike (initial : first.Initial hierarchy graph)
    (otherInitial : second.Initial hierarchy other) (cycles : graph.cycles = other.cycles)
    (reordered : (inclusions first.entries graph.cycles).Perm
      (inclusions second.entries other.cycles)) : Graph.Alike graph other := by
  have marks (mark : Mark TriplePattern) : other.forest.Bears other.pattern? mark ↔
      graph.forest.Bears graph.pattern? mark := by
    simp only [initial.bears_terms_iff, otherInitial.bears_terms_iff, reordered.mem_iff]
  have lengths : ∀ tree ∈ graph.forest.trees, ∀ second ∈ other.forest.trees,
      second.fingerprint = tree.fingerprint → second.length = tree.length := by
    intro tree member second there same
    rw [initial.length_eq member, otherInitial.length_eq there, same, totalLength_perm reordered]
  have sound := initial.sound
  have otherSound := otherInitial.sound
  refine ⟨fun place view => ⟨?_, ?_⟩, fun fingerprint view => ⟨?_, ?_⟩, cycles⟩
  · exact Graph.showsStep_of_marks marks sound otherSound
  · exact Graph.showsStep_of_marks (fun mark => (marks mark).symm) otherSound sound
  · exact Graph.showsTree_of_marks marks sound otherSound lengths
  · exact Graph.showsTree_of_marks (fun mark => (marks mark).symm) otherSound sound
      fun tree member second there same => (lengths second there tree member same.symm).symm

end

/-- The graphs are equal up to the numbers of patterns, trees and steps. In both of them a fingerprint
and a word name at most one step, so what they show there is all there is. -/
structure Graph.EqualUpToNumbers (graph other : Graph) : Prop where
  prefixes : graph.prefixes = other.prefixes
  spaces : (graph.spaces.map fun space => (space.context, graph.pattern? space.pattern)).Perm
    (other.spaces.map fun space => (space.context, other.pattern? space.pattern))
  patterns : graph.patterns.Perm other.patterns
  links : graph.forest.Linked
  otherLinks : other.forest.Linked
  fingerprints : graph.forest.fingerprints.Perm other.forest.fingerprints
  trees : ∀ fingerprint view, graph.ShowsTree fingerprint view ↔ other.ShowsTree fingerprint view
  steps : ∀ fingerprint word view,
    graph.Reaches fingerprint word view ↔ other.Reaches fingerprint word view
  cycles : graph.cycles = other.cycles

section
variable {first second : Plan} {hierarchy : Hierarchy} {roots : Roots} {graph other : Graph}

theorem Graph.mem_fingerprints {fingerprint : Fingerprint} :
    fingerprint ∈ graph.forest.fingerprints ↔ ∃ view, graph.ShowsTree fingerprint view := by
  constructor
  · intro member
    obtain ⟨tree, inside, named⟩ := List.mem_map.mp member
    exact ⟨_, tree, inside, named, rfl⟩
  · rintro ⟨_, tree, inside, named, _⟩
    exact List.mem_map.mpr ⟨tree, inside, named⟩

theorem Plan.Initial.spaces_eq (initial : first.Initial hierarchy graph) :
    (graph.spaces.map fun space => (space.context, graph.pattern? space.pattern)) =
      first.entries.map fun entry => (entry.context, some entry.pattern) := by
  rw [initial.spaces, List.map_map]
  refine List.map_congr_left fun entry member => ?_
  have known := initial.pattern?_eq_some.mpr ⟨List.mem_map_of_mem member, rfl⟩
  rw [Function.comp_apply, known]

theorem compile_eq_error (built : first.initialGraph hierarchy = .ok graph)
    (unknown : ¬graph.Known hierarchy roots) : ∃ error, first.compile hierarchy roots = .error error := by
  cases compiled : first.compile hierarchy roots with
  | error error => exact ⟨error, rfl⟩
  | ok result =>
    obtain ⟨initial, again, known, _⟩ := Graph.compile_eq_ok_iff.mp compiled
    rw [built, Except.ok.injEq] at again
    exact absurd (again ▸ known) unknown

theorem Plan.Initial.equal_compiled (initial : first.Initial hierarchy graph)
    (otherInitial : second.Initial hierarchy other) (reordered : first.Reordered second)
    (hints : ConsistentHints first.entries) (alike : Graph.Alike graph other) :
    (graph.compiled hierarchy roots).EqualUpToNumbers (other.compiled hierarchy roots) := by
  have compiled : Graph.Alike (graph.compiled hierarchy roots) (other.compiled hierarchy roots) :=
    alike.compiled initial.sound otherInitial.sound
  have links : (graph.compiled hierarchy roots).forest.Linked :=
    (graph.sameLinks_compiled).linked initial.links
  have otherLinks : (other.compiled hierarchy roots).forest.Linked :=
    (other.sameLinks_compiled).linked otherInitial.links
  refine ⟨?_, ?_, ?_, links, otherLinks, ?_, compiled.trees, ?_, compiled.cycles⟩
  · exact initial.prefixes.trans (reordered.1.trans otherInitial.prefixes.symm)
  · refine (List.Perm.of_eq initial.spaces_eq).trans (.trans ?_ (.of_eq otherInitial.spaces_eq.symm))
    exact reordered.map_perm fun entry other pair => by rw [pair.context, pair.pattern]
  · have patterns := hints.unanimous.registered_perm reordered.patternRequests_perm
    rwa [← initial.patterns, ← otherInitial.patterns] at patterns
  · refine (List.perm_ext_iff_of_nodup links.fingerprints_nodup otherLinks.fingerprints_nodup).mpr
      fun fingerprint => ?_
    simp only [Graph.mem_fingerprints, compiled.trees]
  · intro fingerprint word view
    rw [Graph.reaches_iff links, Graph.reaches_iff otherLinks, compiled.steps]

/-- The order of a plan does not matter. -/
theorem compile_reordered (reordered : first.Reordered second)
    (cycles : ConsistentCycles (cycleRequests first.entries)) (hints : ConsistentHints first.entries) :
    (∃ error other, first.compile hierarchy roots = .error error ∧
      second.compile hierarchy roots = .error other) ∨
    ∃ graph other, first.compile hierarchy roots = .ok graph ∧
      second.compile hierarchy roots = .ok other ∧ graph.EqualUpToNumbers other := by
  have lookups (id : CycleId) :
      (cycleRequests first.entries).lookup id = (cycleRequests second.entries).lookup id :=
    cycles.lookup_perm reordered.cycleRequests_perm id
  have meets : hierarchy.CanMeet (cycleRequests first.entries) ↔
      hierarchy.CanMeet (cycleRequests second.entries) := by
    simp only [Hierarchy.CanMeet, lookups]
  -- Requests of one identifier agree, so it does not matter which of them comes first.
  rcases initialGraph_spec first hierarchy with ⟨met, graph, initial, built⟩ | ⟨unmet, error, failed⟩
  · rcases initialGraph_spec second hierarchy with
      ⟨_, other, otherInitial, alsoBuilt⟩ | ⟨unmet, _⟩
    · have same : graph.cycles = other.cycles := OrderedMap.ext fun id => by
        rw [initial.cycles, otherInitial.cycles, lookups]
      have alike : Graph.Alike graph other :=
        initial.alike otherInitial same (same ▸ reordered.inclusions_perm graph.cycles)
      by_cases known : graph.Known hierarchy roots
      · have alsoKnown : other.Known hierarchy roots :=
          alike.symm.known otherInitial.sound initial.sound known
        exact Or.inr ⟨_, _, Graph.compile_eq_ok_iff.mpr ⟨graph, built, known, rfl⟩,
          Graph.compile_eq_ok_iff.mpr ⟨other, alsoBuilt, alsoKnown, rfl⟩,
          initial.equal_compiled otherInitial reordered hints alike⟩
      · have alsoUnknown : ¬other.Known hierarchy roots := fun other =>
          known (alike.known initial.sound otherInitial.sound other)
        obtain ⟨error, fails⟩ := compile_eq_error built known
        obtain ⟨other, alsoFails⟩ := compile_eq_error alsoBuilt alsoUnknown
        exact Or.inl ⟨error, other, fails, alsoFails⟩
    · exact absurd (meets.mp met) unmet
  · rcases initialGraph_spec second hierarchy with ⟨met, _⟩ | ⟨_, other, alsoFailed⟩
    · exact absurd (meets.mpr met) unmet
    · refine Or.inl ⟨error, other, ?_, ?_⟩
      · rw [Plan.compile, failed]
        rfl
      · rw [Plan.compile, alsoFailed]
        rfl

end

/-- An entry with a cycle that the group asks for too, and a path that ends in the shared leaf. -/
def friendEntry : PlanEntry where
  context := "query"
  pattern := ⟨.variable "x", .iri "knows", .iri "group"⟩
  check := none
  cycles := [⟨"c", [⟨"knows", "Person"⟩]⟩, ⟨"d", [⟨"knows", "Person"⟩, ⟨"member", "Author"⟩]⟩]
  paths := [⟨[⟨"member", "Person"⟩, ⟨"knows", "Person"⟩], ["group"], none⟩,
    ⟨[⟨"knows", "Person"⟩], ["group", "club"], none⟩]

def friendPlan : Plan := ⟨∅, [memberEntry, friendEntry]⟩

def turnedPlan : Plan := ⟨∅, [{ friendEntry with
  cycles := friendEntry.cycles.reverse, paths := friendEntry.paths.reverse }, memberEntry]⟩

theorem compile_reordered_friends :
    friendPlan.Reordered turnedPlan ∧ ConsistentCycles (cycleRequests friendPlan.entries) ∧
      ConsistentHints friendPlan.entries ∧ ∃ graph other,
        friendPlan.compile groupTypes ⟨.ofList ["x"], ∅⟩ = .ok graph ∧
        turnedPlan.compile groupTypes ⟨.ofList ["x"], ∅⟩ = .ok other ∧
        graph.EqualUpToNumbers other := by
  have reordered : friendPlan.Reordered turnedPlan := by
    refine ⟨rfl, [friendEntry, memberEntry], .swap .., .cons ⟨rfl, rfl, rfl, ?_, ?_⟩ (.cons ?_ .nil)⟩
    · exact (List.reverse_perm _).symm
    · exact (List.reverse_perm _).symm
    · exact ⟨rfl, rfl, rfl, .refl _, .refl _⟩
  have cycles : ConsistentCycles (cycleRequests friendPlan.entries) := by
    unfold ConsistentCycles
    decide +kernel
  have hints : ConsistentHints friendPlan.entries := by
    unfold ConsistentHints
    decide +kernel
  refine ⟨reordered, cycles, hints, ?_⟩
  rcases compile_reordered reordered cycles hints with ⟨error, _, failed, _⟩ | equal
  · obtain ⟨_, compiles⟩ :=
      exists_ok (by decide +kernel : (friendPlan.compile groupTypes ⟨.ofList ["x"], ∅⟩).isOk = true)
    rw [failed] at compiles
    cases compiles
  · exact equal

end PlanGraph
