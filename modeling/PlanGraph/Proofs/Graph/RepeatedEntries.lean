import PlanGraph.Proofs.Graph.FailedEntries
import PlanGraph.Proofs.Graph.Trees

/-! Entries that are added again. All they ask for is there: their pattern has its node, their cycles are
requested, and their paths leave marks that are borne already. So only the lengths of trees grow. -/

set_option autoImplicit false
namespace PlanGraph

def SearchTree.lengthen (tree : SearchTree) (steps : Nat) : SearchTree :=
  { tree with length := tree.length + steps }

/-! Marks tell what a step and a tree hold, apart from lengths. -/

theorem StepContent.eq_of_carries {content other : StepContent (OrderedSet PatternId)}
    (same : ∀ mark : StepMark PatternId, other.Carries some mark ↔ content.Carries some mark) :
    other = content := by
  refine StepContent.ext (OrderedSet.ext fun type => same (.type type)) (OrderedSet.ext fun id => ?_)
    (Option.ext fun value => same (.check value)) (OrderedSet.ext fun cycle => same (.start cycle))
  simpa [Carries] using same (.pattern id)

theorem TreeContent.eq_of_carries {content other : TreeContent (OrderedSet PatternId)}
    (same : ∀ mark : TreeMark PatternId, other.Carries some mark ↔ content.Carries some mark) :
    other = { content with length := other.length } := by
  refine TreeContent.ext (OrderedSet.ext fun type => same (.source type))
    (OrderedSet.ext fun seed => same (.seed seed)) rfl (OrderedSet.ext fun cycle => same (.cycle cycle))
    (OrderedSet.ext fun id => ?_)
  simpa [Carries] using same (.pattern id)

namespace Forest

structure SameMarks (first second : Forest) : Prop where
  links : first.Linked
  alsoLinks : second.Linked
  fingerprints : second.fingerprints = first.fingerprints
  keys : second.keys = first.keys
  bears : ∀ mark : Mark PatternId, second.Bears some mark ↔ first.Bears some mark

namespace SameMarks
variable {first second : Forest}

theorem childrenOf (same : SameMarks first second) (node : ChainNode) :
    second.childrenOf node = first.childrenOf node := by
  rw [same.alsoLinks.children, same.links.children, same.keys]

theorem step_eq (same : SameMarks first second) {id : StepId} {step other : Step}
    (found : first.steps[id]? = some step) (there : second.steps[id]? = some other) : other = step := by
  obtain ⟨above, _, here⟩ := same.links.exists_at found
  have also : second.At (.step id) (above.below step.label) := by
    unfold At
    rw [same.fingerprints, same.keys]
    exact here
  have content : other.content = step.content := StepContent.eq_of_carries fun mark =>
    (same.alsoLinks.bears_step_iff also there some mark).symm.trans
      ((same.bears (.step _ mark)).trans (same.links.bears_step_iff here found some mark))
  have key : other.key = step.key := by
    have keys := key_at.mpr ⟨other, there, rfl⟩
    rw [same.keys, key_at.mpr ⟨step, found, rfl⟩] at keys
    exact (Option.some.inj keys).symm
  have children := same.childrenOf (.step id)
  simp only [Forest.childrenOf, found, there, Option.map_some, Option.getD_some] at children
  cases step
  cases other
  cases content
  cases key
  cases children
  rfl

theorem tree_eq (same : SameMarks first second) {id : TreeId} {tree other : SearchTree}
    (found : first.trees[id]? = some tree) (there : second.trees[id]? = some other) :
    other = { tree with length := other.length } := by
  have named : other.fingerprint = tree.fingerprint := by
    have fingerprints := fingerprint_at.mpr ⟨other, there, rfl⟩
    rw [same.fingerprints, fingerprint_at.mpr ⟨tree, found, rfl⟩] at fingerprints
    exact (Option.some.inj fingerprints).symm
  have content : other.content = { tree.content with length := other.length } :=
    TreeContent.eq_of_carries fun mark => by
      rw [← same.alsoLinks.bears_tree_iff (List.mem_of_getElem? there), named, same.bears,
        same.links.bears_tree_iff (List.mem_of_getElem? found)]
  have children := same.childrenOf (.tree id)
  simp only [Forest.childrenOf, found, there, Option.map_some, Option.getD_some] at children
  cases tree
  cases other
  cases content
  cases named
  cases children
  rfl

theorem steps_eq (same : SameMarks first second) : second.steps = first.steps := by
  have length : second.steps.length = first.steps.length := by
    rw [← length_keys, ← length_keys, same.keys]
  refine List.ext_getElem length fun id bound other => ?_
  exact same.step_eq (List.getElem?_eq_getElem other) (List.getElem?_eq_getElem bound)

theorem trees_eq (same : SameMarks first second) (more : Fingerprint → Nat)
    (longer : ∀ tree ∈ first.trees, ∀ other ∈ second.trees, other.fingerprint = tree.fingerprint →
      other.length = tree.length + more tree.fingerprint) :
    second.trees = first.trees.map fun tree => tree.lengthen (more tree.fingerprint) := by
  have length : second.trees.length = first.trees.length := by
    rw [← length_fingerprints, ← length_fingerprints, same.fingerprints]
  refine List.ext_getElem (by rw [length, List.length_map]) fun id bound other => ?_
  rw [List.length_map] at other
  have equal := same.tree_eq (List.getElem?_eq_getElem other) (List.getElem?_eq_getElem bound)
  have grown := longer first.trees[id] (List.getElem_mem other) second.trees[id] (List.getElem_mem bound)
    (by rw [equal])
  rw [List.getElem_map, equal, grown]
  rfl

end SameMarks

theorem Within.keys_eq {first second : Forest} (larger : Within first second) (links : second.Linked)
    (bears : ∀ mark : Mark PatternId, second.Bears some mark → first.Bears some mark) :
    second.keys = first.keys := by
  obtain ⟨new, whole⟩ := larger.keys
  have bound (id : StepId) (inside : id < second.keys.length) : id < first.keys.length := by
    obtain ⟨place, here⟩ := Stands.exists_place links.ordered inside
    obtain ⟨step, found, _⟩ := key_at.mp (List.getElem?_eq_getElem inside)
    obtain ⟨other, _, there, _⟩ := bears (.step place .present) ⟨id, step, here, found, trivial⟩
    -- A step of the first forest stands at that place, and keeps its number.
    cases links.node_unique here (larger.at_place there)
    exact Stands.step_bound there
  have none_new : new.length = 0 := by
    by_contra some_new
    have longer : first.keys.length < second.keys.length := by
      rw [← whole, List.length_append]
      exact Nat.lt_add_of_pos_right (Nat.pos_of_ne_zero some_new)
    exact Nat.lt_irrefl _ (bound first.keys.length longer)
  rw [← whole, List.eq_nil_of_length_eq_zero none_new, List.append_nil]

theorem within_ofInclusions (number : TriplePattern → PatternId) (earlier later : List Inclusion) :
    Within (ofInclusions number earlier) (ofInclusions number (earlier ++ later)) := by
  induction later using List.reverseRecOn with
  | nil =>
    rw [List.append_nil]
    exact .refl _
  | append_singleton others last ih =>
    have whole : ofInclusions number (earlier ++ (others ++ [last])) =
        (ofInclusions number (earlier ++ others)).takeIn (number last.pattern) last := by
      simp [ofInclusions]
    rw [whole]
    exact ih.trans ((madeOf_ofInclusions number (earlier ++ others)).takeIn_develops last).larger

section
variable {number : TriplePattern → PatternId} {taken more : List Inclusion}

theorem sameMarks_ofInclusions (known : more ⊆ taken) :
    SameMarks (ofInclusions number taken) (ofInclusions number (taken ++ more)) := by
  have made := madeOf_ofInclusions number taken
  have again := madeOf_ofInclusions number (taken ++ more)
  have bears (mark : Mark PatternId) :
      (ofInclusions number (taken ++ more)).Bears some mark ↔ (ofInclusions number taken).Bears some mark := by
    rw [again.bears, made.bears]
    simp only [List.mem_append]
    refine exists_congr fun inclusion => and_congr_left fun _ => ?_
    exact ⟨fun listed => listed.elim id fun repeated => known repeated, Or.inl⟩
  -- Marks do not tell the numbers of nodes, so fingerprints and keys are compared in their order.
  refine ⟨made.links, again.links, ?_, ?_, bears⟩
  · have repeated : (more.map Inclusion.fingerprint).removeAll (taken.map Inclusion.fingerprint) = [] := by
      refine List.filter_eq_nil_iff.mpr fun fingerprint member => ?_
      obtain ⟨inclusion, inside, rfl⟩ := List.mem_map.mp member
      simpa using ⟨inclusion, known inside, rfl⟩
    rw [fingerprints_ofInclusions, fingerprints_ofInclusions, List.map_append, List.eraseDups_append,
      repeated, List.eraseDups_nil, List.append_nil]
  · exact (within_ofInclusions number taken more).keys_eq again.links
      fun mark => (bears mark).mp

/-- Inclusions that were taken in before only make their trees longer. -/
theorem ofInclusions_again (known : more ⊆ taken) :
    ofInclusions number (taken ++ more) =
      ⟨(ofInclusions number taken).trees.map fun tree =>
          tree.lengthen (totalLength more tree.fingerprint),
        (ofInclusions number taken).steps⟩ := by
  have same : SameMarks (ofInclusions number taken) (ofInclusions number (taken ++ more)) :=
    sameMarks_ofInclusions known
  have trees := same.trees_eq (totalLength more) fun tree member other there named => by
    have before := length_ofInclusions taken (List.mem_map.mpr ⟨tree, member, rfl⟩)
    have after := length_ofInclusions (taken ++ more) (List.mem_map.mpr ⟨other, there, rfl⟩)
    rw [after, before, named, totalLength_append]
  rw [← trees, ← same.steps_eq]

end
end Forest

def PlanEntry.stepCount (entry : PlanEntry) (fingerprint : Fingerprint) : Nat :=
  (((entry.includedPaths.map Prod.fst).filter fun path =>
    PlanGraph.fingerprint path.seeds = fingerprint).map fun path => path.steps.length).sum

theorem PlanEntry.totalLength_inclusions (entry : PlanEntry) (cycles : OrderedMap CycleId Cycle) :
    totalLength (entry.inclusions cycles) = entry.stepCount := by
  funext fingerprint
  rw [totalLength_eq_sum, inclusions, List.map_map]
  rfl

namespace Builder

/-- What an entry leaves that was added before: no more than one space and longer trees. -/
structure OnlyCounts (builder : Builder) (entry : PlanEntry) (later : Builder) : Prop where
  prefixes : later.graph.prefixes = builder.graph.prefixes
  spaces : ∃ id, builder.graph.pattern? id = some entry.pattern ∧
    later.graph.spaces = builder.graph.spaces ++ [⟨entry.context, id⟩]
  patterns : later.graph.patterns = builder.graph.patterns
  trees : later.graph.forest.trees = builder.graph.forest.trees.map fun tree =>
    { tree with length := tree.length + entry.stepCount tree.fingerprint }
  steps : later.graph.forest.steps = builder.graph.forest.steps
  cycles : later.graph.cycles = builder.graph.cycles

/-- What a builder that has gathered entries knows of one that was added with success. -/
structure Holds (hierarchy : Hierarchy) (builder : Builder) (entry : PlanEntry) (given : List PlanEntry)
    (taken : List Inclusion) (asked : List CycleRequest) : Prop where
  gathers : builder.Gathers given taken
  records : builder.book.Records hierarchy asked
  listed : entry ∈ given
  requested : ∀ request ∈ entry.cycleRequests, request.1 ∈ builder.book.requested
  included : entry.inclusions builder.book.cycles ⊆ taken

variable {hierarchy : Hierarchy} {builder : Builder} {entry : PlanEntry} {given : List PlanEntry}
  {taken : List Inclusion} {asked : List CycleRequest}

theorem Gathers.holds (gathers : builder.Gathers given taken)
    (records : builder.book.Records hierarchy asked)
    (succeeds : (builder.addEntry hierarchy entry).2 = none) : ∃ more others,
      (builder.addEntry hierarchy entry).1.Holds hierarchy entry (given ++ [entry]) more others := by
  have answers := @CycleBook.requestAll_answers hierarchy builder.book entry.cycleRequests
  have outcome := records.inTurn entry.cycleRequests
  rw [gathers.orderly.addEntry_eq] at succeeds ⊢
  generalize builder.book.requestAll hierarchy entry.cycleRequests = result at answers outcome succeeds
  cases outcome with
  | refused => cases succeeds
  | @met book recorded unrefused =>
    have backed := entry.backed_inclusionsThrough (answers.described _ rfl) given
    refine ⟨_, _, gathers.taking entry answers.kept backed, recorded, by simp, fun request member => ?_, ?_⟩
    · exact recorded.asked_of_mem (List.mem_append_right asked member)
    · exact List.subset_append_right taken _

theorem Holds.addEntry (holds : builder.Holds hierarchy entry given taken asked) (other : PlanEntry) :
    ∃ more others, (builder.addEntry hierarchy other).1.Holds hierarchy entry (given ++ [other])
      (taken ++ more) (asked ++ others) := by
  obtain ⟨more, gathers⟩ := holds.gathers.addEntry hierarchy other
  have records := records_addEntry holds.records other
  -- What was requested is decided, so the entry is still included through the same cycles.
  have same : entry.inclusions (builder.addEntry hierarchy other).1.book.cycles =
      entry.inclusions builder.book.cycles := by
    refine PlanEntry.inclusions_congr fun request member => ?_
    rw [OrderedMap.contains, OrderedMap.contains,
      holds.records.find?_append records (holds.requested request member)]
  refine ⟨more, _, gathers, records, List.mem_append_left _ holds.listed, fun request member => ?_, ?_⟩
  · obtain ⟨steps, first⟩ := (holds.records.requested _).mp (holds.requested request member)
    exact (records.requested _).mpr ⟨steps, by rw [List.lookup_append, first, Option.some_or]⟩
  · rw [same]
    exact List.Subset.trans holds.included (List.subset_append_left _ _)

theorem Holds.addAll (holds : builder.Holds hierarchy entry given taken asked)
    (entries : List PlanEntry) : ∃ more others,
      (builder.addAll hierarchy entries).Holds hierarchy entry (given ++ entries) more others := by
  induction entries generalizing builder given taken asked with
  | nil => exact ⟨taken, asked, by rwa [List.append_nil]⟩
  | cons first rest ih =>
    obtain ⟨_, _, next⟩ := holds.addEntry first
    obtain ⟨more, others, last⟩ := ih next
    rw [List.append_assoc] at last
    exact ⟨more, others, last⟩

theorem Holds.onlyCounts (holds : builder.Holds hierarchy entry given taken asked) : ∃ later,
    builder.addEntry hierarchy entry = (later, none) ∧ builder.OnlyCounts entry later := by
  have gathers := holds.gathers
  have number := numberOf_again holds.listed
  have requested : entry.pattern ∈ given.map PlanEntry.pattern := List.mem_map_of_mem holds.listed
  have forest : (entry.inclusions builder.book.cycles).foldl (fun forest inclusion =>
        forest.takeIn (numberOf (given ++ [entry]) inclusion.pattern) inclusion) builder.nursery.forest =
      ⟨builder.nursery.forest.trees.map fun tree => tree.lengthen (entry.stepCount tree.fingerprint),
        builder.nursery.forest.steps⟩ := by
    have known := holds.included
    rw [gathers.nursery, Nursery.forest_ofForest, ofInclusions_append entry
      (fun inclusion member => (gathers.backed inclusion member).requested), number,
      Forest.ofInclusions_again known, entry.totalLength_inclusions]
  refine ⟨builder.taking given entry builder.book (entry.inclusions builder.book.cycles), ?_, ?_⟩
  · rw [gathers.orderly.addEntry_eq, CycleBook.requestAll_again holds.requested]
    rfl
  · have registry := registry_again holds.listed
    rw [← gathers.registry] at registry
    have patterns := congrArg PatternRegistry.nodes registry
    have trees := congrArg Forest.trees forest
    have steps := congrArg Forest.steps forest
    refine ⟨rfl, ⟨numberOf given entry.pattern, ?_, ?_⟩, patterns, trees, steps, rfl⟩
    · rw [gathers.pattern?_eq, getElem?_numberOf requested]
    · rw [← number]
      rfl

/-- An entry that was once added with success can be added again at any time. It is counted in the
lengths of its trees and gets another space, and nothing else changes. -/
theorem repeated_only_counts (prefixes : Prefixes) (hierarchy : Hierarchy) (given more : List PlanEntry)
    (entry : PlanEntry)
    (succeeds : (((start prefixes).addAll hierarchy given).addEntry hierarchy entry).2 = none) :
    ∃ later, ((start prefixes).addAll hierarchy (given ++ entry :: more)).addEntry hierarchy entry =
        (later, none) ∧
      ((start prefixes).addAll hierarchy (given ++ entry :: more)).OnlyCounts entry later := by
  obtain ⟨taken, gathers⟩ := (gathers_start prefixes).addAll hierarchy given
  have records := @records_addAll hierarchy (start prefixes) [] (CycleBook.records_empty hierarchy) given
  obtain ⟨_, _, added⟩ := gathers.holds records succeeds
  obtain ⟨_, _, last⟩ := added.addAll more
  have whole : (start prefixes).addAll hierarchy (given ++ entry :: more) =
      ((((start prefixes).addAll hierarchy given).addEntry hierarchy entry).1).addAll hierarchy more := by
    simp [addAll]
  rw [whole]
  exact last.onlyCounts

end Builder

/-- The entry fails at first and succeeds from then on, as its requests are known. -/
theorem repeated_only_counts_robot :
    (((Builder.start ∅).addAll groupTypes [robotEntry]).addEntry groupTypes robotEntry).2 = none ∧
    ∃ later, ((Builder.start ∅).addAll groupTypes [robotEntry, robotEntry, memberEntry]).addEntry groupTypes
          robotEntry = (later, none) ∧
        ((Builder.start ∅).addAll groupTypes [robotEntry, robotEntry, memberEntry]).OnlyCounts robotEntry
          later ∧
        later.graph.forest.trees.map SearchTree.length = [3] := by
  have succeeds :
      (((Builder.start ∅).addAll groupTypes [robotEntry]).addEntry groupTypes robotEntry).2 = none := by
    decide
  obtain ⟨later, again, counts⟩ :=
    Builder.repeated_only_counts ∅ groupTypes [robotEntry] [memberEntry] robotEntry succeeds
  refine ⟨succeeds, later, again, counts, ?_⟩
  rw [counts.trees]
  decide +kernel
end PlanGraph
