import PlanGraph.Proofs.Description.Faithful
import PlanGraph.Proofs.Graph.WellFormed

/-! The description is closed. Every blank node in it stands for one thing of the graph, and that thing
is described; no quad is repeated, and no reference to a cycle is left out. -/

set_option autoImplicit false
namespace PlanGraph
open Rdf (Quad Term Literal)
open Rdf.Vocabulary (rdfType rdfsLabel)

def NodeKind.all : List NodeKind := [.space, .variable, .pattern, .literal, .tree, .step, .cycle]

namespace Graph
variable {graph : Graph} {node : Node}

def nodesOf (graph : Graph) : NodeKind → List Node
  | .space => (List.range graph.spaces.length).map .space
  | .variable => graph.variableNames.elements.map .variable
  | .pattern => (List.range graph.patterns.length).map .pattern
  | .literal => graph.literals.map graph.literalNode
  | .tree => graph.forest.trees.map fun tree => .tree tree.fingerprint
  | .step => (List.range graph.forest.steps.length).map .step
  | .cycle => (List.range graph.cycles.entries.length).map .cycle ++
      graph.cycles.entries.zipIdx.flatMap fun (entry, index) =>
        (List.range entry.2.steps.length).map (.cycleStep index)

def nodes (graph : Graph) : List Node := NodeKind.all.flatMap graph.nodesOf

theorem literals_map_literalNode :
    graph.literals.map graph.literalNode = (List.range graph.literals.length).map .literal := by
  refine List.ext_getElem (by simp) fun index bound _ => ?_
  have inside : index < graph.literals.length := by simpa using bound
  simp [literalNode, graph.literals_nodup.idxOf_getElem index inside]

theorem mem_nodes : node ∈ graph.nodes ↔ (graph.record? node).isSome = true := by
  simp only [nodes, NodeKind.all, List.flatMap_cons, List.flatMap_nil, nodesOf, literals_map_literalNode]
  cases node with
  | «variable» name =>
    have listed : name ∈ graph.variableNames.elements ↔ name ∈ graph.variableNames := Iff.rfl
    by_cases known : name ∈ graph.variableNames <;> simp [record?, listed, known]
  | cycleStep index position =>
    cases found : graph.cycles.entries[index]? <;>
      simp [record?, List.mem_zipIdx_iff_getElem?, found]
  | _ => simp [record?]

theorem kind_of_mem_nodesOf {kind : NodeKind} (member : node ∈ graph.nodesOf kind) :
    node.kind = kind := by
  cases kind with
  | cycle =>
    rcases List.mem_append.mp member with cycle | step
    · obtain ⟨_, _, rfl⟩ := List.mem_map.mp cycle
      rfl
    · obtain ⟨_, _, position⟩ := List.mem_flatMap.mp step
      obtain ⟨_, _, rfl⟩ := List.mem_map.mp position
      rfl
  | _ =>
    obtain ⟨_, _, rfl⟩ := List.mem_map.mp member
    rfl

theorem nodesOf_nodup (nodup : graph.forest.fingerprints.Nodup) (kind : NodeKind) :
    (graph.nodesOf kind).Nodup := by
  cases kind with
  | space => exact List.nodup_range.map fun _ _ same => Node.space.inj same
  | «variable» => exact graph.variableNames.nodup.map fun _ _ same => Node.variable.inj same
  | pattern => exact List.nodup_range.map fun _ _ same => Node.pattern.inj same
  | literal =>
    rw [nodesOf, literals_map_literalNode]
    exact List.nodup_range.map fun _ _ same => Node.literal.inj same
  | tree =>
    have nodes : graph.nodesOf .tree = graph.forest.fingerprints.map .tree := by
      simp [nodesOf, Forest.fingerprints]
    rw [nodes]
    exact nodup.map fun _ _ same => Node.tree.inj same
  | step => exact List.nodup_range.map fun _ _ same => Node.step.inj same
  | cycle =>
    -- Cycles are told apart by their numbers, and steps of one cycle by their positions.
    have indices : graph.cycles.entries.zipIdx.Pairwise fun first second => first.2 ≠ second.2 := by
      apply List.pairwise_map.mp
      rw [List.zipIdx_map_snd]
      exact List.nodup_range'
    refine List.nodup_append.mpr ⟨List.nodup_range.map fun _ _ same => Node.cycle.inj same,
      List.nodup_flatMap.mpr ⟨?_, ?_⟩, ?_⟩
    · exact fun entry _ => List.nodup_range.map fun _ _ same => (Node.cycleStep.inj same).2
    · refine indices.imp fun differ node first second => ?_
      obtain ⟨_, _, rfl⟩ := List.mem_map.mp first
      obtain ⟨_, _, same⟩ := List.mem_map.mp second
      exact differ (Node.cycleStep.inj same).1.symm
    · intro cycle isCycle step isStep same
      obtain ⟨_, _, rfl⟩ := List.mem_map.mp isCycle
      obtain ⟨_, _, position⟩ := List.mem_flatMap.mp isStep
      obtain ⟨_, _, rfl⟩ := List.mem_map.mp position
      cases same

theorem nodes_nodup (nodup : graph.forest.fingerprints.Nodup) : graph.nodes.Nodup := by
  have kinds : NodeKind.all.Nodup := by decide
  refine List.nodup_flatMap.mpr ⟨fun kind _ => nodesOf_nodup nodup kind, kinds.imp ?_⟩
  intro first second differ node inFirst inSecond
  exact differ ((kind_of_mem_nodesOf inFirst).symm.trans (kind_of_mem_nodesOf inSecond))

/-! The values in the records. -/

def Covers (graph : Graph) (term : Term) : Prop :=
  ∀ label, term = .blank label → ∃ node ∈ graph.nodes, term = node.term

structure Resolves (graph : Graph) (values : List Term) : Prop where
  nodup : values.Nodup
  covers : ∀ value ∈ values, graph.Covers value

theorem covers_iri (name : Iri) : graph.Covers (.iri name) := fun _ same => nomatch same

theorem covers_literal (value : Literal) : graph.Covers (.literal value) := fun _ same => nomatch same

theorem covers_node (member : node ∈ graph.nodes) : graph.Covers node.term :=
  fun _ _ => ⟨node, member, rfl⟩

theorem Resolves.empty : graph.Resolves [] where
  nodup := .nil
  covers := fun _ member => nomatch member

theorem Resolves.one {value : Term} (covers : graph.Covers value) : graph.Resolves [value] where
  nodup := List.nodup_singleton value
  covers := fun _ member => List.mem_singleton.mp member ▸ covers

theorem Resolves.option {value : Option Term} (covers : ∀ found, value = some found → graph.Covers found) :
    graph.Resolves value.toList := by
  cases value with
  | none => exact .empty
  | some found => exact .one (covers found rfl)

theorem Resolves.iris (names : OrderedSet Iri) : graph.Resolves (names.elements.map .iri) where
  nodup := names.nodup.map iri_injective
  covers := fun value member => by
    obtain ⟨name, _, rfl⟩ := List.mem_map.mp member
    exact covers_iri name

theorem Resolves.nodes {α : Type} {items : List α} {image : α → Node} (nodup : items.Nodup)
    (injective : Function.Injective image) (inside : ∀ item ∈ items, image item ∈ graph.nodes) :
    graph.Resolves (items.map fun item => (image item).term) where
  nodup := nodup.map fun _ _ same => injective (Node.term_inj.mp same)
  covers := fun value member => by
    obtain ⟨item, listed, rfl⟩ := List.mem_map.mp member
    exact covers_node (inside item listed)

theorem Resolves.patterns {ids : OrderedSet PatternId} (inside : ∀ id, id ∈ ids → id < graph.patterns.length) :
    graph.Resolves (ids.elements.map fun id => (Node.pattern id).term) := by
  refine .nodes ids.nodup (fun _ _ same => Node.pattern.inj same) fun id member => ?_
  simpa [mem_nodes, record?] using inside id member

theorem Resolves.cycles (ids : OrderedSet CycleId) :
    graph.Resolves ((ids.elements.filterMap graph.cycleNode?).map Node.term) := by
  refine .nodes (ids.nodup.filterMap fun _ _ _ => cycleNode?_injective) (fun _ _ same => same) ?_
  intro node member
  obtain ⟨id, _, found⟩ := List.mem_filterMap.mp member
  obtain ⟨index, cycle, entry, rfl⟩ := cycleNode?_eq_some.mp found
  simp [mem_nodes, record?, entry]

theorem Resolves.children (links : graph.forest.Linked) (node : ChainNode) :
    graph.Resolves ((graph.forest.childrenOf node).map fun id => (Node.step id).term) := by
  refine .nodes links.nodup_childrenOf (fun _ _ same => Node.step.inj same) fun id below => ?_
  simpa [mem_nodes, record?] using links.wellFormed.children node id below

theorem covers_ofPatternTerm? {term : PatternTerm}
    (listed : ∀ name, term.variable? = some name → name ∈ graph.variableNames) :
    ∀ value, ofPatternTerm? term = some value → graph.Covers value := by
  intro value told
  cases term with
  | «variable» name =>
    cases told
    exact covers_node (by simpa [mem_nodes, record?] using listed name rfl)
  | fixed term =>
    cases term with
    | iri name =>
      cases told
      exact covers_iri name
    | literal content =>
      cases told
      exact covers_literal content
    | blank label => cases told

theorem Resolves.image {α : Type} {value : Option α} {image : α → Term}
    (covers : ∀ found, graph.Covers (image found)) : graph.Resolves (value.toList.map image) := by
  cases value with
  | none => exact .empty
  | some found => exact .one (covers found)

theorem Resolves.children_of_tree (links : graph.forest.Linked) {tree : SearchTree}
    (member : tree ∈ graph.forest.trees) :
    graph.Resolves (tree.children.map fun id => (Node.step id).term) := by
  obtain ⟨id, found⟩ := List.getElem?_of_mem member
  simpa [Forest.childrenOf, found] using Resolves.children links (.tree id)

theorem Resolves.children_of_step (links : graph.forest.Linked) {step : Step}
    (member : step ∈ graph.forest.steps) :
    graph.Resolves (step.children.map fun id => (Node.step id).term) := by
  obtain ⟨id, found⟩ := List.getElem?_of_mem member
  simpa [Forest.childrenOf, found] using Resolves.children links (.step id)

theorem covers_cycleStep {index position : Nat} {entry : CycleId × Cycle}
    (found : graph.cycles.entries[index]? = some entry) (inside : position < entry.2.steps.length) :
    graph.Covers (Node.cycleStep index position).term :=
  covers_node (by simpa [mem_nodes, record?, found] using inside)

theorem nodup_of_said {quads : List Quad} (subjects : ∀ quad ∈ quads, ∃ node : Node, quad.subject = node.term)
    (nodup : ∀ node : Node, (said quads node.term).Nodup) : quads.Nodup := by
  induction quads with
  | nil => exact .nil
  | cons first rest ih =>
    have parts (node : Node) : (said [first] node.term ++ said rest node.term).Nodup := by
      rw [← said_append]
      exact nodup node
    have later : rest.Nodup :=
      ih (fun quad member => subjects quad (List.mem_cons_of_mem _ member)) fun node =>
        (List.nodup_append.mp (parts node)).2.1
    refine List.nodup_cons.mpr ⟨fun again => ?_, later⟩
    obtain ⟨node, subject⟩ := subjects first List.mem_cons_self
    have here : (first.predicate, first.object) ∈ said [first] node.term :=
      mem_said.mpr ⟨first.graph, subject ▸ List.mem_singleton_self first⟩
    have there : (first.predicate, first.object) ∈ said rest node.term :=
      mem_said.mpr ⟨first.graph, subject ▸ again⟩
    exact (List.nodup_append.mp (parts node)).2.2 _ here _ there rfl

theorem placed_quads : ∀ quad ∈ graph.quads, ∃ node : Node, quad.subject = node.term ∧ node.Places quad := by
  have forget {kinds : List NodeKind} {quad : Quad} (placed : Placed kinds quad) :
      ∃ node : Node, quad.subject = node.term ∧ node.Places quad := by
    obtain ⟨node, _, about⟩ := placed
    exact ⟨node, about⟩
  intro quad member
  simp only [quads_eq_sections, List.mem_append] at member
  rcases member with ((((space | name) | pattern) | tree) | step) | cycle
  · exact forget (placed_spaceQuads quad space)
  · exact forget (placed_variableQuads quad name)
  · exact forget (placed_describePatterns quad pattern)
  · exact forget (placed_treeQuads quad tree)
  · exact forget (placed_stepQuads quad step)
  · exact forget (placed_cycleQuads quad cycle)

namespace Describable
variable (describable : graph.Describable)
include describable

theorem resolves_pattern {pattern : PatternNode} (member : pattern ∈ graph.patterns) (id : PatternId) :
    ∀ field ∈ graph.patternRecord pattern id, graph.Resolves field.2 := by
  have fits := describable.fits pattern member
  have subject (name : String) (named : pattern.pattern.subject.variable? = some name) :
      name ∈ graph.variableNames :=
    mem_variableNames.mpr ⟨pattern, member, Or.inl (PatternTerm.variable?_eq_some.mp named)⟩
  have object (name : String) (named : pattern.pattern.object.variable? = some name) :
      name ∈ graph.variableNames :=
    mem_variableNames.mpr ⟨pattern, member, Or.inr (PatternTerm.variable?_eq_some.mp named)⟩
  have predicate : graph.Covers (ofPredicate pattern.pattern.predicate) := by
    obtain ⟨name, named⟩ := fits.predicate
    rw [named]
    exact covers_iri name
  -- A literal object stands for itself under a number, other objects are terms of the graph.
  have objectNode : ∀ value, graph.objectNode? pattern = some value → graph.Covers value := by
    intro value told
    unfold objectNode? at told
    cases content : pattern.literal? with
    | none =>
      rw [content] at told
      exact covers_ofPatternTerm? object value told
    | some literal =>
      rw [content] at told
      cases told
      have listed : graph.literals.idxOf literal < graph.literals.length :=
        List.idxOf_lt_length_iff.mpr (mem_literals member content)
      exact covers_node (by simpa [mem_nodes, record?, literalNode] using listed)
  simp only [patternRecord, List.forall_mem_cons]
  exact ⟨.one (covers_iri _), .one (covers_literal _), .option (covers_ofPatternTerm? subject),
    .one predicate, .option objectNode, .image fun _ => covers_literal _, List.forall_mem_nil _⟩

theorem resolves_tree {tree : SearchTree} (member : tree ∈ graph.forest.trees) :
    ∀ field ∈ graph.treeRecord tree, graph.Resolves field.2 := by
  simp only [treeRecord, treeFields, List.cons_append, List.nil_append, List.forall_mem_cons]
  exact ⟨.one (covers_iri _), .iris _, .iris _, .one (covers_literal _),
    .patterns (describable.trees tree member), .children_of_tree describable.links member, .cycles _,
    List.forall_mem_nil _⟩

theorem resolves_step {step : Step} (member : step ∈ graph.forest.steps) :
    ∀ field ∈ graph.stepRecord step, graph.Resolves field.2 := by
  simp only [stepRecord, List.forall_mem_cons]
  exact ⟨.image covers_iri, .iris _, .patterns (describable.steps step member),
    .image fun _ => covers_literal _, .cycles _, .children_of_step describable.links member,
    List.forall_mem_nil _⟩

theorem resolves {record : Record} (found : graph.record? node = some record) :
    ∀ field ∈ record, graph.Resolves field.2 := by
  cases node with
  | space index =>
    obtain ⟨space, there, rfl⟩ := Option.map_eq_some_iff.mp found
    have known := describable.spaces space (List.mem_of_getElem? there)
    simp only [spaceRecord, List.forall_mem_cons]
    exact ⟨.one (covers_iri _), .one (covers_node (by simpa [mem_nodes, record?] using known)),
      List.forall_mem_nil _⟩
  | «variable» name =>
    simp only [record?] at found
    split at found
    · cases found
      simp only [variableRecord, List.forall_mem_cons]
      exact ⟨.one (covers_iri _), .one (covers_literal _), List.forall_mem_nil _⟩
    · cases found
  | pattern id =>
    obtain ⟨pattern, there, rfl⟩ := Option.map_eq_some_iff.mp found
    exact describable.resolves_pattern (List.mem_of_getElem? there) id
  | literal index =>
    obtain ⟨literal, _, rfl⟩ := Option.map_eq_some_iff.mp found
    simp only [literalRecord, List.forall_mem_cons]
    exact ⟨.one (covers_iri _), .one (covers_literal _), List.forall_mem_nil _⟩
  | tree fingerprint =>
    obtain ⟨tree, there, rfl⟩ := Option.map_eq_some_iff.mp found
    exact describable.resolves_tree (List.mem_of_find?_eq_some there)
  | step id =>
    obtain ⟨step, there, rfl⟩ := Option.map_eq_some_iff.mp found
    exact describable.resolves_step (List.mem_of_getElem? there)
  | cycle index =>
    obtain ⟨entry, there, rfl⟩ := Option.map_eq_some_iff.mp found
    have next : ∀ value, entry.2.steps.head?.map (fun _ => (Node.cycleStep index 0).term) = some value →
        graph.Covers value := by
      intro value told
      obtain ⟨first, begins, rfl⟩ := Option.map_eq_some_iff.mp told
      exact covers_cycleStep there (List.length_pos_of_mem (List.mem_of_head? begins))
    simp only [cycleRecord, List.forall_mem_cons]
    exact ⟨.one (covers_iri _), .one (covers_literal _), .iris _, .option next, List.forall_mem_nil _⟩
  | cycleStep index position =>
    obtain ⟨entry, there, found⟩ := Option.bind_eq_some_iff.mp found
    obtain ⟨step, stands, rfl⟩ := Option.map_eq_some_iff.mp found
    have next : ∀ value, (entry.2.steps.drop (position + 1)).head?.map
        (fun _ => (Node.cycleStep index (position + 1)).term) = some value → graph.Covers value := by
      intro value told
      obtain ⟨later, begins, rfl⟩ := Option.map_eq_some_iff.mp told
      rw [List.head?_drop] at begins
      exact covers_cycleStep there (List.getElem?_eq_some_iff.mp begins).1
    simp only [cycleStepRecord, List.forall_mem_cons]
    exact ⟨.one (covers_iri _), .one (covers_iri _), .option next, List.forall_mem_nil _⟩

/-! From the records to the quads. -/

theorem exists_record {quad : Quad} (member : quad ∈ graph.quads) (subject : quad.subject = node.term) :
    ∃ record, graph.record? node = some record ∧ (quad.predicate, quad.object) ∈ record.pairs := by
  have inside : (quad.predicate, quad.object) ∈ said graph.quads node.term :=
    mem_said.mpr ⟨quad.graph, subject ▸ member⟩
  rw [describable.said_quads] at inside
  cases found : graph.record? node with
  | none =>
    rw [found] at inside
    cases inside
  | some record =>
    rw [found] at inside
    exact ⟨record, rfl, inside⟩

theorem exists_quad {record : Record} {pair : Iri × Term} (found : graph.record? node = some record)
    (member : pair ∈ record.pairs) :
    ∃ quad ∈ graph.quads, quad.subject = node.term ∧ quad.predicate = pair.1 ∧ quad.object = pair.2 ∧
      node.Places quad := by
  have inside : pair ∈ said graph.quads node.term := by
    rw [describable.said_quads, found]
    exact member
  obtain ⟨name, stated⟩ := mem_said.mp inside
  obtain ⟨other, subject, places⟩ := placed_quads _ stated
  cases Node.term_inj.mp subject
  exact ⟨_, stated, rfl, rfl, rfl, places⟩

theorem covers_object {quad : Quad} (member : quad ∈ graph.quads) : graph.Covers quad.object := by
  obtain ⟨node, subject, _⟩ := placed_quads quad member
  obtain ⟨record, found, inside⟩ := describable.exists_record member subject
  obtain ⟨values, field, listed⟩ := Record.mem_pairs.mp inside
  exact (describable.resolves found _ field).covers _ listed

/-- The graph of a quad is named by a cycle only where the cycle is described or pointed to. -/
theorem covers_graph {quad : Quad} (member : quad ∈ graph.quads) {name : Term}
    (named : quad.graph = some name) : graph.Covers name := by
  obtain ⟨node, subject, places⟩ := placed_quads quad member
  obtain ⟨record, found, _⟩ := describable.exists_record member subject
  cases node with
  | space index => exact nomatch places.symm.trans named
  | «variable» name => exact nomatch places.symm.trans named
  | pattern id => exact nomatch places.symm.trans named
  | literal index => exact nomatch places.symm.trans named
  | tree fingerprint =>
    simp only [Node.Places] at places
    split at places
    · obtain ⟨_, _, pointed⟩ := places
      cases pointed.symm.trans named
      exact describable.covers_object member
    · cases places.symm.trans named
      exact covers_iri _
  | step id =>
    cases places.symm.trans named
    exact covers_iri _
  | cycle index =>
    cases places.symm.trans named
    exact covers_node (mem_nodes.mpr (by simp [found]))
  | cycleStep index position =>
    cases places.symm.trans named
    obtain ⟨entry, there, _⟩ := Option.bind_eq_some_iff.mp found
    exact covers_node (by simp [mem_nodes, record?, there])

theorem exists_subject {term : Term} {label : String} (covers : graph.Covers term)
    (blank : term = .blank label) : ∃ quad ∈ graph.quads, quad.subject = term := by
  obtain ⟨node, known, rfl⟩ := covers label blank
  obtain ⟨record, found⟩ := Option.isSome_iff_exists.mp (mem_nodes.mp known)
  obtain ⟨pair, member⟩ := describable.exists_pair found
  obtain ⟨quad, stated, subject, _⟩ := describable.exists_quad found member
  exact ⟨quad, stated, subject⟩

theorem quads_nodup : graph.quads.Nodup := by
  apply nodup_of_said
  · intro quad member
    obtain ⟨node, subject, _⟩ := placed_quads quad member
    exact ⟨node, subject⟩
  · intro node
    rw [describable.said_quads]
    cases found : graph.record? node with
    | none => exact .nil
    | some record =>
      have keys : record.keys.Nodup := keys_of_record? found ▸ node.keys_nodup
      exact Record.pairs_nodup keys fun field member => (describable.resolves found field member).nodup

theorem treeCycle_told {tree : SearchTree} (member : tree ∈ graph.forest.trees) {id : CycleId}
    (mentioned : id ∈ tree.cycles) : ∃ (index : Nat) (cycle : Cycle),
      graph.cycles.entries[index]? = some (id, cycle) ∧
        (⟨(Node.tree tree.fingerprint).term, Vocabulary.goesThroughCycle, (Node.cycle index).term,
          some (Node.cycle index).term⟩ : Quad) ∈ graph.quads := by
  obtain ⟨index, cycle, entry, found⟩ :=
    exists_cycleNode (describable.cycles.trees tree member id mentioned)
  have reference : Node.cycle index ∈ tree.cycles.elements.filterMap graph.cycleNode? :=
    List.mem_filterMap.mpr ⟨id, mentioned, found⟩
  have pair : (Vocabulary.goesThroughCycle, (Node.cycle index).term) ∈ (graph.treeRecord tree).pairs :=
    Record.mem_pairs.mpr ⟨_, List.mem_append_right _ List.mem_cons_self, List.mem_map_of_mem reference⟩
  obtain ⟨⟨_, _, _, name⟩, stated, rfl, rfl, rfl, places⟩ :=
    describable.exists_quad (describable.record?_tree member) pair
  obtain ⟨_, _, rfl⟩ : ∃ other, (Node.cycle index).term = (Node.cycle other).term ∧
      name = some (Node.cycle index).term := by simpa [Node.Places] using places
  exact ⟨index, cycle, entry, stated⟩

theorem cycleStart_told {step : Step} {number : StepId} (there : graph.forest.steps[number]? = some step)
    {id : CycleId} (starts : id ∈ step.cycleStarts) : ∃ (index : Nat) (cycle : Cycle),
      graph.cycles.entries[index]? = some (id, cycle) ∧
        (⟨(Node.step number).term, Vocabulary.isCycleStartOf, (Node.cycle index).term, treesGraph⟩ : Quad) ∈
          graph.quads := by
  obtain ⟨index, cycle, entry, found⟩ :=
    exists_cycleNode (describable.cycles.steps step (List.mem_of_getElem? there) id starts)
  have record : graph.record? (.step number) = some (graph.stepRecord step) := by simp [record?, there]
  have reference : Node.cycle index ∈ step.cycleStarts.elements.filterMap graph.cycleNode? :=
    List.mem_filterMap.mpr ⟨id, starts, found⟩
  have pair : (Vocabulary.isCycleStartOf, (Node.cycle index).term) ∈ (graph.stepRecord step).pairs :=
    Record.mem_pairs.mpr ⟨_, by simp [stepRecord], List.mem_map_of_mem reference⟩
  obtain ⟨⟨_, _, _, name⟩, stated, rfl, rfl, rfl, rfl⟩ := describable.exists_quad record pair
  exact ⟨index, cycle, entry, stated⟩

end Describable

/-- Different things have different labels, no quad is repeated, every quad is about one of the things in
the place where it belongs, and whatever it mentions or is placed in is described. No mentioned cycle is
passed over. -/
structure Closed (graph : Graph) : Prop where
  labels : (graph.nodes.map Node.label).Nodup
  nodup : graph.quads.Nodup
  subjects : ∀ quad ∈ graph.quads, ∃ node ∈ graph.nodes, quad.subject = node.term ∧ node.Places quad
  objects : ∀ quad ∈ graph.quads, ∀ label, quad.object = .blank label →
    ∃ other ∈ graph.quads, other.subject = quad.object
  graphs : ∀ quad ∈ graph.quads, ∀ label, quad.graph = some (.blank label) →
    ∃ other ∈ graph.quads, quad.graph = some other.subject
  treeCycles : ∀ tree ∈ graph.forest.trees, ∀ id, id ∈ tree.cycles → ∃ (index : Nat) (cycle : Cycle),
    graph.cycles.entries[index]? = some (id, cycle) ∧
      ⟨(Node.tree tree.fingerprint).term, Vocabulary.goesThroughCycle, (Node.cycle index).term,
        some (Node.cycle index).term⟩ ∈ graph.quads
  cycleStarts : ∀ number step, graph.forest.steps[number]? = some step → ∀ id, id ∈ step.cycleStarts →
    ∃ (index : Nat) (cycle : Cycle), graph.cycles.entries[index]? = some (id, cycle) ∧
      ⟨(Node.step number).term, Vocabulary.isCycleStartOf, (Node.cycle index).term, treesGraph⟩ ∈ graph.quads

theorem Describable.closed (describable : graph.Describable) : graph.Closed where
  labels := (nodes_nodup describable.links.fingerprints_nodup).map Node.label_injective
  nodup := describable.quads_nodup
  subjects := fun quad member => by
    obtain ⟨node, subject, places⟩ := placed_quads quad member
    obtain ⟨record, found, _⟩ := describable.exists_record member subject
    exact ⟨node, mem_nodes.mpr (Option.isSome_iff_exists.mpr ⟨record, found⟩), subject, places⟩
  objects := fun _ member _ blank => describable.exists_subject (describable.covers_object member) blank
  graphs := fun quad member label named => by
    obtain ⟨other, stated, subject⟩ :=
      describable.exists_subject (describable.covers_graph member named) rfl
    exact ⟨other, stated, subject ▸ named⟩
  treeCycles := fun _ member _ mentioned => describable.treeCycle_told member mentioned
  cycleStarts := fun _ _ found _ starts => describable.cycleStart_told found starts

end Graph

/-- The description of a compiled graph is closed and unambiguous. -/
theorem Plan.compile_closed {glyphs : List Text.Glyph} {plan : Plan} {hierarchy : Hierarchy} {roots : Roots}
    {graph : Graph} (decoded : Plan.ofGlyphs glyphs = .ok plan)
    (compiled : plan.compile hierarchy roots = .ok graph) : graph.Closed :=
  (Plan.describable decoded compiled).closed

theorem compile_closed_friends : ∃ graph, friendsGraph ∅ "main" = .ok graph ∧
    graph.literals = [.simple "Ada"] ∧ graph.cycles.contains "friends" = true ∧ graph.Closed := by
  have succeeds : (friendsGraph ∅ "main").isOk = true := by decide +kernel
  obtain ⟨graph, compiled⟩ := exists_ok succeeds
  have contents : (friendsGraph ∅ "main").map (fun graph =>
      (graph.literals, graph.cycles.contains "friends")) = .ok ([.simple "Ada"], true) := by decide +kernel
  rw [compiled] at contents
  obtain ⟨literals, cycle⟩ := Prod.mk.inj (Except.ok.inj contents)
  exact ⟨graph, compiled, literals, cycle, Plan.compile_closed friendsText_decodes compiled⟩

end PlanGraph
