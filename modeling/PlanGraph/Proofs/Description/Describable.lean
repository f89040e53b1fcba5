import PlanGraph.Plan.Decoding
import PlanGraph.Proofs.Description.Sections
import PlanGraph.Proofs.Graph.Alike

/-! Graphs that can be described in full. The patterns of decoded plans have only terms that quads can
tell, and compilation leaves no dangling number and no step without a type. -/

set_option autoImplicit false
namespace PlanGraph

structure TriplePattern.Fits (pattern : TriplePattern) : Prop where
  subject : pattern.subject.fits .subject = true
  predicate : ∃ name, pattern.predicate = .iri name
  object : pattern.object.fits .object = true

theorem PatternTerm.ofTextAt_eq_ok {prefixes : Prefixes} {position : Position} {raw : String}
    {term : PatternTerm} : PatternTerm.ofTextAt prefixes position raw = .ok term ↔
      PatternTerm.ofText prefixes position raw = .ok term ∧ term.fits position = true := by
  unfold ofTextAt
  rw [bind_eq_ok]
  constructor
  · rintro ⟨found, read, kept⟩
    split at kept
    · next fits =>
      cases kept
      exact ⟨read, fits⟩
    · cases kept
  · rintro ⟨read, fits⟩
    exact ⟨term, read, if_pos fits⟩

theorem TriplePattern.terms_of_ofTexts {prefixes : Prefixes} {subject predicate object : String}
    {pattern : TriplePattern}
    (read : TriplePattern.ofTexts prefixes subject predicate object = .ok pattern) :
    PatternTerm.ofTextAt prefixes .subject subject = .ok pattern.subject ∧
      (∃ name, pattern.predicate = .iri name) ∧
        PatternTerm.ofTextAt prefixes .object object = .ok pattern.object := by
  obtain ⟨subjectTerm, first, read⟩ := bind_eq_ok.mp read
  obtain ⟨predicateTerm, _, read⟩ := bind_eq_ok.mp read
  split at read
  · cases read
  · next name _ =>
    obtain ⟨objectTerm, last, read⟩ := bind_eq_ok.mp read
    cases read
    exact ⟨first, ⟨name, rfl⟩, last⟩

theorem TriplePattern.fits_of_ofTexts {prefixes : Prefixes} {subject predicate object : String}
    {pattern : TriplePattern}
    (read : TriplePattern.ofTexts prefixes subject predicate object = .ok pattern) : pattern.Fits := by
  obtain ⟨first, predicate, last⟩ := terms_of_ofTexts read
  exact ⟨(PatternTerm.ofTextAt_eq_ok.mp first).2, predicate, (PatternTerm.ofTextAt_eq_ok.mp last).2⟩

theorem Document.Entry.ofTexts_of_decode {prefixes : Prefixes} {entry : Document.Entry}
    {decoded : PlanEntry} (read : entry.decode prefixes = .ok decoded) :
    TriplePattern.ofTexts prefixes entry.subject entry.predicate entry.object = .ok decoded.pattern := by
  obtain ⟨pattern, found, read⟩ := bind_eq_ok.mp read
  obtain ⟨paths, _, read⟩ := bind_eq_ok.mp read
  cases read
  exact mapError_eq_ok.mp found

theorem Plan.exists_texts_of_decoded {glyphs : List Text.Glyph} {plan : Plan}
    (decoded : Plan.ofGlyphs glyphs = .ok plan) {entry : PlanEntry} (member : entry ∈ plan.entries) :
    ∃ prefixes subject predicate object,
      TriplePattern.ofTexts prefixes subject predicate object = .ok entry.pattern := by
  unfold ofGlyphs at decoded
  split at decoded
  · obtain ⟨entries, read, decoded⟩ := bind_eq_ok.mp decoded
    cases decoded
    obtain ⟨input, _, decodes⟩ := exists_input_of_mapM read member
    exact ⟨_, _, _, _, Document.Entry.ofTexts_of_decode decodes⟩
  · cases decoded

theorem Plan.fits_of_decoded {glyphs : List Text.Glyph} {plan : Plan}
    (decoded : Plan.ofGlyphs glyphs = .ok plan) {entry : PlanEntry} (member : entry ∈ plan.entries) :
    entry.pattern.Fits := by
  obtain ⟨prefixes, subject, predicate, object, read⟩ := exists_texts_of_decoded decoded member
  exact TriplePattern.fits_of_ofTexts read

theorem PatternTerm.variable?_eq_some {term : PatternTerm} {name : String} :
    term.variable? = some name ↔ term = .variable name := by
  cases term <;> simp [ PatternTerm.variable?]

def TriplePattern.Uses (pattern : TriplePattern) (name : String) : Prop :=
  pattern.subject = .variable name ∨ pattern.object = .variable name

theorem Graph.mem_variableNames {graph : Graph} {name : String} :
    name ∈ graph.variableNames ↔ ∃ node ∈ graph.patterns, node.pattern.Uses name := by
  simp [variableNames, TriplePattern.Uses, PatternTerm.variable?_eq_some]

/-- Nothing that the graph refers to is missing or cannot be said in quads. -/
structure Graph.Describable (graph : Graph) : Prop where
  links : graph.forest.Linked
  typed : ∀ step ∈ graph.forest.steps, ∃ type, type ∈ step.types
  fits : ∀ node ∈ graph.patterns, node.pattern.Fits
  spaces : ∀ space ∈ graph.spaces, space.pattern < graph.patterns.length
  trees : ∀ tree ∈ graph.forest.trees, ∀ id, id ∈ tree.patterns → id < graph.patterns.length
  steps : ∀ step ∈ graph.forest.steps, ∀ id, id ∈ step.patterns → id < graph.patterns.length
  cycles : graph.CyclesDescribed

/-! Cycles are referred to by their place among the described ones. -/

theorem Graph.cycleNode?_eq_some {graph : Graph} {id : CycleId} {node : Node} :
    graph.cycleNode? id = some node ↔ ∃ (index : Nat) (cycle : Cycle),
      graph.cycles.entries[index]? = some (id, cycle) ∧ node = .cycle index := by
  unfold cycleNode?
  rw [Option.map_eq_some_iff]
  simp only [findIdx?_key_eq_some graph.cycles.keys_nodup, List.getElem?_map, Option.map_eq_some_iff,
    Prod.exists]
  constructor
  · rintro ⟨index, ⟨_, cycle, found, rfl⟩, rfl⟩
    exact ⟨index, cycle, found, rfl⟩
  · rintro ⟨index, cycle, found, rfl⟩
    exact ⟨index, ⟨id, cycle, found, rfl⟩, rfl⟩

theorem Graph.exists_cycleNode {graph : Graph} {id : CycleId}
    (described : graph.cycles.contains id = true) : ∃ (index : Nat) (cycle : Cycle),
      graph.cycles.entries[index]? = some (id, cycle) ∧ graph.cycleNode? id = some (.cycle index) := by
  obtain ⟨cycle, found⟩ := OrderedMap.contains_iff.mp described
  obtain ⟨index, there⟩ := List.getElem?_of_mem (OrderedMap.mem_entries.mpr found)
  exact ⟨index, cycle, there, cycleNode?_eq_some.mpr ⟨index, cycle, there, rfl⟩⟩

theorem Graph.cycleNode?_injective {graph : Graph} {first second : CycleId} {node : Node}
    (found : graph.cycleNode? first = some node) (also : graph.cycleNode? second = some node) :
    first = second := by
  obtain ⟨index, cycle, there, rfl⟩ := cycleNode?_eq_some.mp found
  obtain ⟨again, other, alsoThere, same⟩ := cycleNode?_eq_some.mp also
  cases same
  rw [there] at alsoThere
  cases alsoThere
  rfl

namespace Graph.Describable
variable {graph : Graph}

theorem record?_tree (describable : graph.Describable) {tree : SearchTree}
    (member : tree ∈ graph.forest.trees) :
    graph.record? (.tree tree.fingerprint) = some (graph.treeRecord tree) := by
  refine Option.map_eq_some_iff.mpr ⟨tree, ?_, rfl⟩
  cases found : graph.forest.trees.find? fun other => other.fingerprint = tree.fingerprint with
  | none => simpa using List.find?_eq_none.mp found tree member
  | some other =>
    have same : other.fingerprint = tree.fingerprint := by simpa using List.find?_some found
    have inside := List.mem_of_find?_eq_some found
    rw [List.inj_on_of_nodup_map describable.links.fingerprints_nodup inside member same]

theorem exists_pair (describable : graph.Describable) {node : Node} {record : Record}
    (found : graph.record? node = some record) : ∃ pair, pair ∈ record.pairs := by
  cases node with
  | «variable» name =>
    simp only [record?] at found
    split at found
    · cases found
      exact ⟨_, List.mem_cons_self⟩
    · cases found
  | step id =>
    obtain ⟨step, there, rfl⟩ := Option.map_eq_some_iff.mp found
    obtain ⟨type, expected⟩ := describable.typed step (List.mem_of_getElem? there)
    have listed : Rdf.Term.iri type ∈ step.types.elements.map Rdf.Term.iri :=
      List.mem_map_of_mem expected
    exact ⟨_, Record.mem_pairs.mpr ⟨_, List.mem_cons_of_mem _ List.mem_cons_self, listed⟩⟩
  | cycleStep index position =>
    obtain ⟨entry, _, found⟩ := Option.bind_eq_some_iff.mp found
    obtain ⟨step, _, rfl⟩ := Option.map_eq_some_iff.mp found
    exact ⟨_, List.mem_cons_self⟩
  | _ =>
    obtain ⟨value, _, rfl⟩ := Option.map_eq_some_iff.mp found
    exact ⟨_, List.mem_cons_self⟩

theorem said_quads (describable : graph.Describable) (node : Node) :
    said graph.quads node.term = (graph.record? node).elim [] Record.pairs :=
  Graph.said_quads describable.links.fingerprints_nodup node

theorem record?_eq {other : Graph} (describable : graph.Describable) (also : other.Describable)
    (same : graph.quads = other.quads) (node : Node) : graph.record? node = other.record? node := by
  have pairs : (graph.record? node).elim [] Record.pairs = (other.record? node).elim [] Record.pairs := by
    rw [← describable.said_quads, ← also.said_quads, same]
  cases first : graph.record? node with
  | none =>
    cases second : other.record? node with
    | none => rfl
    | some record =>
      obtain ⟨pair, member⟩ := also.exists_pair second
      rw [first, second, Option.elim_none, Option.elim_some] at pairs
      rw [← pairs] at member
      cases member
  | some record =>
    cases second : other.record? node with
    | none =>
      obtain ⟨pair, member⟩ := describable.exists_pair first
      rw [first, second, Option.elim_none, Option.elim_some] at pairs
      rw [pairs] at member
      cases member
    | some again =>
      rw [first, second, Option.elim_some, Option.elim_some] at pairs
      have keys := keys_of_record? first
      have keysAgain := keys_of_record? second
      rw [Record.eq_of_pairs (keys.trans keysAgain.symm) (keys ▸ node.keys_nodup) pairs]

end Graph.Describable

theorem Plan.Initial.describable {plan : Plan} {hierarchy : Hierarchy} {graph : Graph}
    (initial : plan.Initial hierarchy graph) (fits : ∀ entry ∈ plan.entries, entry.pattern.Fits) :
    graph.Describable where
  links := initial.links
  typed := fun step member => by
    obtain ⟨id, found⟩ := List.getElem?_of_mem member
    exact initial.madeOf.exists_type found
  fits := fun node member => by
    obtain ⟨id, found⟩ := List.getElem?_of_mem member
    have known : graph.pattern? id = some node.pattern := by simp [Graph.pattern?, found]
    obtain ⟨entry, inside, same⟩ := List.mem_map.mp (initial.pattern?_eq_some.mp known).1
    exact same ▸ fits entry inside
  spaces := fun space member => by
    rw [initial.spaces] at member
    obtain ⟨entry, inside, rfl⟩ := List.mem_map.mp member
    rw [initial.patterns]
    exact numberOf_lt (List.mem_map_of_mem inside)
  trees := fun tree member id serves => by
    obtain ⟨inclusion, listed, _, _, rfl⟩ :=
      (initial.madeOf.tree_carries_iff member (.pattern id)).mp ⟨id, serves, rfl⟩
    rw [initial.patterns]
    exact numberOf_lt (pattern_of_mem_inclusions listed)
  steps := fun step member id serves => by
    obtain ⟨number, found⟩ := List.getElem?_of_mem member
    obtain ⟨_, inclusion, listed, rfl⟩ := initial.madeOf.leaf_of_serves found serves
    rw [initial.patterns]
    exact numberOf_lt (pattern_of_mem_inclusions listed)
  cycles := initial.cyclesDescribed

theorem Graph.Describable.compiled {graph : Graph} (describable : graph.Describable)
    (hierarchy : Hierarchy) (roots : Roots) : (graph.compiled hierarchy roots).Describable where
  links := (Graph.sameLinks_compiled graph).linked describable.links
  typed := fun step member => by
    rw [Graph.compiled_steps] at member
    obtain ⟨before, inside, rfl⟩ := List.mem_map.mp member
    obtain ⟨type, expected⟩ := describable.typed before inside
    exact ⟨type, Graph.mem_types_compiledStep.mpr (Or.inl expected)⟩
  fits := describable.fits
  spaces := describable.spaces
  trees := fun tree member id serves => by
    rw [Graph.compiled_trees] at member
    obtain ⟨before, inside, rfl⟩ := List.mem_map.mp member
    exact describable.trees before inside id serves
  steps := fun step member id serves => by
    rw [Graph.compiled_steps] at member
    obtain ⟨before, inside, rfl⟩ := List.mem_map.mp member
    rw [Graph.compiledStep_patterns] at serves
    exact describable.steps before inside id serves
  cycles := by
    constructor
    · intro tree member id mentioned
      rw [Graph.compiled_trees] at member
      obtain ⟨before, _, rfl⟩ := List.mem_map.mp member
      have kept := (Graph.mem_cycles_compiledTree.mp mentioned).2
      exact Graph.contains_spread.trans (List.contains_iff_mem.mpr kept)
    · intro step member id starts
      rw [Graph.compiled_steps] at member
      obtain ⟨before, inside, rfl⟩ := List.mem_map.mp member
      have kept : id ∈ graph.keptCycles hierarchy roots := by
        rcases ((Graph.mem_starts_compiledStep inside).mp starts).2 with anchored | ⟨_, kept⟩
        · exact Graph.mem_keptCycles.mpr ⟨before, inside, anchored⟩
        · exact kept
      exact Graph.contains_spread.trans (List.contains_iff_mem.mpr kept)

theorem Plan.describable {glyphs : List Text.Glyph} {plan : Plan} {hierarchy : Hierarchy}
    {roots : Roots} {graph : Graph} (decoded : Plan.ofGlyphs glyphs = .ok plan)
    (compiled : plan.compile hierarchy roots = .ok graph) : graph.Describable := by
  obtain ⟨initial, built, _, rfl⟩ := Graph.compile_eq_ok_iff.mp compiled
  have represents := (Plan.Initial.of_ok built).2
  exact (represents.describable fun entry => Plan.fits_of_decoded decoded).compiled hierarchy roots

end PlanGraph
