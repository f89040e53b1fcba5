import PlanGraph.Proofs.Description.Describable
import PlanGraph.Proofs.Description.Names

/-! What the quads of a description are made of: nodes of the graph, words of the vocabulary, IRIs of the
graph, and literals. -/

set_option autoImplicit false
namespace PlanGraph
open Rdf (Quad Term Literal)
open Rdf.Vocabulary (rdfType rdfsLabel)

def Vocabulary.words : List Iri :=
  [rdfType, rdfsLabel, trees, searchSpace, triplePattern, searchTree, cycle, queryVariable, literal, definedBy,
   subject, predicate, object, value, onProperty, expectedType, next, byPattern, hasSeed, fromType, length,
   checkType, goesThroughCycle, isCycleStartOf]

inductive IsNote : Literal → Prop
  | text (value : String) : IsNote (.simple value)
  | bool (value : Bool) : IsNote (.typed (if value then "true" else "false") Rdf.Vocabulary.xsdBoolean)
  | number (value : Nat) : IsNote (.typed (toString value) Rdf.Vocabulary.xsdInteger)

namespace Graph

/-- Variables and trees are nodes of a graph that has them. The labels of other nodes only number them. -/
def Knows (graph : Graph) : Node → Prop
  | .variable name => name ∈ graph.variableNames
  | .tree fingerprint => fingerprint ∈ graph.forest.fingerprints
  | _ => True

inductive Tells (graph : Graph) : Term → Prop
  | node {node : Node} (known : graph.Knows node) : Tells graph node.term
  | word {name : Iri} (listed : name ∈ Vocabulary.words) : Tells graph (.iri name)
  | name {name : Iri} (names : graph.Names name) : Tells graph (.iri name)
  | note {literal : Literal} (note : IsNote literal) : Tells graph (.literal literal)
  | literal {node : PatternNode} {literal : Literal} (member : node ∈ graph.patterns)
      (tells : node.literal? = some literal) : Tells graph (.literal literal)

def TellsAll (graph : Graph) (values : List (Iri × Term)) : Prop :=
  ∀ value ∈ values, value.1 ∈ Vocabulary.words ∧ graph.Tells value.2

def IsPlace (term : Term) : Prop := term = .iri Vocabulary.trees ∨ ∃ index, term = (Node.cycle index).term

structure Says (graph : Graph) (quad : Quad) : Prop where
  subject : ∃ node, graph.Knows node ∧ quad.subject = node.term
  predicate : quad.predicate ∈ Vocabulary.words
  object : graph.Tells quad.object
  place : ∀ term ∈ quad.graph, IsPlace term

section
variable {graph : Graph} {property : Iri} {value : Term} {first rest : List (Iri × Term)}

theorem tellsAll_nil : graph.TellsAll [] := fun _ none => nomatch none

theorem tellsAll_cons (told : graph.Tells value) (others : graph.TellsAll rest)
    (listed : property ∈ Vocabulary.words := by simp [Vocabulary.words]) :
    graph.TellsAll ((property, value) :: rest) :=
  List.forall_mem_cons.mpr ⟨⟨listed, told⟩, others⟩

theorem tellsAll_append (told : graph.TellsAll first) (others : graph.TellsAll rest) :
    graph.TellsAll (first ++ rest) := List.forall_mem_append.mpr ⟨told, others⟩

theorem tellsAll_each {α : Type} {view : α → Term} {items : List α}
    (told : ∀ item ∈ items, graph.Tells (view item))
    (listed : property ∈ Vocabulary.words := by simp [Vocabulary.words]) :
    graph.TellsAll (each property view items) := by
  intro pair member
  obtain ⟨item, inside, rfl⟩ := List.mem_map.mp member
  exact ⟨listed, told item inside⟩

theorem tellsAll_type {type : Iri} (others : graph.TellsAll rest)
    (listed : type ∈ Vocabulary.words := by simp [Vocabulary.words]) :
    graph.TellsAll ((rdfType, .iri type) :: rest) := tellsAll_cons (.word listed) others

theorem says_statements {node : Node} {place : Option Term} {values : List (Iri × Term)}
    (known : graph.Knows node)
    (places : ∀ term ∈ place, IsPlace term)
    (told : graph.TellsAll values) : ∀ quad ∈ node.statements place values, graph.Says quad := by
  intro quad member
  obtain ⟨value, inside, rfl⟩ := List.mem_map.mp member
  exact ⟨⟨node, known, rfl⟩, (told value inside).1, (told value inside).2, places⟩

end

/-! The sections of a description in turn. -/

section
variable {graph : Graph}

theorem default_places : ∀ term ∈ (none : Option Term), IsPlace term := fun _ none => nomatch none

theorem tree_places : ∀ term ∈ treesGraph, IsPlace term := fun _ found => by
  cases found
  exact Or.inl rfl

theorem cycle_places (index : Nat) : ∀ term ∈ some (Node.cycle index).term, IsPlace term := fun _ found => by
  cases found
  exact Or.inr ⟨index, rfl⟩

theorem says_space (space : SearchSpace) (index : Nat) : ∀ quad ∈ describeSpace space index, graph.Says quad :=
  says_statements trivial default_places <| tellsAll_type <|
    tellsAll_cons (.node trivial) tellsAll_nil

theorem says_variable {name : String} (known : name ∈ graph.variableNames) :
    ∀ quad ∈ describeVariable name, graph.Says quad :=
  says_statements known default_places <| tellsAll_type <|
    tellsAll_cons (.note (.text _)) tellsAll_nil

theorem says_literal {node : PatternNode} {literal : Literal} (member : node ∈ graph.patterns)
    (tells : node.literal? = some literal) : ∀ quad ∈ graph.describeLiteral literal, graph.Says quad :=
  says_statements trivial default_places <| tellsAll_type <|
    tellsAll_cons (.literal member tells) tellsAll_nil

theorem told_patternTerm {node : PatternNode} {term : PatternTerm} (member : node ∈ graph.patterns)
    (stands : term = node.pattern.subject ∨ term = node.pattern.object)
    (plain : ∀ literal, term ≠ .fixed (.literal literal)) :
    ∀ told ∈ (ofPatternTerm? term).toList, graph.Tells told := by
  intro told found
  cases term with
  | «variable» name =>
    cases List.mem_singleton.mp found
    have known : graph.Knows (.variable name) :=
      mem_variableNames.mpr ⟨node, member, stands.imp Eq.symm Eq.symm⟩
    exact .node known
  | fixed fixed =>
    cases fixed with
    | iri name =>
      cases List.mem_singleton.mp found
      refine .name (.pattern member ?_)
      rcases stands with subject | object
      · exact TriplePattern.mem_iris_of_subject (by rw [← subject]; rfl)
      · exact TriplePattern.mem_iris_of_object (by rw [← object]; rfl)
    | blank => cases found
    | literal literal => exact absurd rfl (plain literal)

theorem told_object {node : PatternNode} (member : node ∈ graph.patterns) :
    ∀ told ∈ (graph.objectNode? node).toList, graph.Tells told := by
  unfold objectNode?
  cases object : node.literal? with
  | some literal => exact List.forall_mem_singleton.mpr (.node trivial)
  | none =>
    refine told_patternTerm member (Or.inr rfl) fun literal same => ?_
    rw [PatternNode.literal?, same] at object
    cases object

theorem says_pattern (fits : ∀ node ∈ graph.patterns, node.pattern.Fits) {earlier : List PatternNode}
    {node : PatternNode} (member : node ∈ graph.patterns) (id : PatternId) :
    ∀ quad ∈ graph.describePattern earlier node id, graph.Says quad := by
  have fitting := fits node member
  have subject : ∀ told ∈ (ofPatternTerm? node.pattern.subject).toList, graph.Tells told := by
    -- Literals are not subjects. As objects they have nodes of their own.
    refine told_patternTerm member (Or.inl rfl) fun literal same => ?_
    have stands := fitting.subject
    rw [same] at stands
    cases stands
  have predicate : graph.Tells (ofPredicate node.pattern.predicate) := by
    obtain ⟨name, same⟩ := fitting.predicate
    rw [same]
    refine .name (.pattern member (List.mem_append_left _ (List.mem_append_right _ ?_)))
    rw [same]
    exact List.mem_singleton_self name
  unfold describePattern
  refine List.forall_mem_append.mpr ⟨List.forall_mem_append.mpr ⟨?_, ?_⟩, ?_⟩
  · refine says_statements trivial default_places (tellsAll_append (tellsAll_append ?_ ?_) ?_)
    · exact tellsAll_type <| tellsAll_cons (.note (.text _)) tellsAll_nil
    · exact tellsAll_each subject
    · exact tellsAll_cons predicate tellsAll_nil
  · intro quad described
    obtain ⟨literal, new, described⟩ := List.mem_flatMap.mp described
    have tells := (Option.filter_eq_some_iff.mp (Option.mem_toList.mp new)).1
    exact says_literal member tells quad described
  · refine says_statements trivial default_places (tellsAll_append ?_ ?_)
    · exact tellsAll_each (told_object member)
    · exact tellsAll_each fun _ _ => .note (.bool _)

theorem says_tree {tree : SearchTree} (member : tree ∈ graph.forest.trees) :
    ∀ quad ∈ graph.describeTree tree, graph.Says quad := by
  have known : graph.Knows (.tree tree.fingerprint) := List.mem_map_of_mem member
  refine List.forall_mem_append.mpr ⟨says_statements known tree_places ?_, ?_⟩
  · refine tellsAll_append (tellsAll_append (tellsAll_append (tellsAll_append (tellsAll_append ?_ ?_) ?_) ?_) ?_) ?_
    · exact tellsAll_type tellsAll_nil
    · exact tellsAll_each fun type uses => .name (.source member uses)
    · exact tellsAll_each fun seed uses => .name (.seed member uses)
    · exact tellsAll_cons (.note (.number _)) tellsAll_nil
    · exact tellsAll_each fun _ _ => .node trivial
    · exact tellsAll_each fun _ _ => .node trivial
  · intro quad inside
    obtain ⟨node, found, rfl⟩ := List.mem_map.mp inside
    obtain ⟨id, _, named⟩ := List.mem_filterMap.mp found
    obtain ⟨index, _, _, rfl⟩ := cycleNode?_eq_some.mp named
    exact ⟨⟨_, known, rfl⟩, by simp [Vocabulary.words], .node trivial, cycle_places index⟩

theorem says_step {step : Step} (member : step ∈ graph.forest.steps) (id : StepId) :
    ∀ quad ∈ graph.describeStep step id, graph.Says quad := by
  refine says_statements trivial tree_places ?_
  refine tellsAll_append (tellsAll_append (tellsAll_append (tellsAll_append (tellsAll_append ?_ ?_) ?_) ?_) ?_) ?_
  · refine tellsAll_each fun name uses => .name (.property member ?_)
    cases label : step.label with
    | leaf =>
      rw [label] at uses
      cases uses
    | property other =>
      rw [label] at uses
      rw [List.mem_singleton.mp uses]
  · exact tellsAll_each fun type uses => .name (.expected member uses)
  · exact tellsAll_each fun _ _ => .node trivial
  · exact tellsAll_each fun _ _ => .note (.bool _)
  · refine tellsAll_each fun node found => ?_
    obtain ⟨id, _, named⟩ := List.mem_filterMap.mp found
    obtain ⟨index, _, _, rfl⟩ := cycleNode?_eq_some.mp named
    exact .node trivial
  · exact tellsAll_each fun _ _ => .node trivial

theorem says_cycleSteps {index position : Nat} {previous : Node} {steps : List PathStep}
    (known : graph.Knows previous) (names : ∀ name ∈ steps.flatMap PathStep.iris, graph.Names name) :
    ∀ quad ∈ describeCycleSteps index previous position steps, graph.Says quad := by
  -- Each step is told of the node before it, which is the cycle itself for the first of them.
  induction steps generalizing previous position with
  | nil => exact fun _ none => nomatch none
  | cons step rest ih =>
    rw [List.flatMap_cons, List.forall_mem_append] at names
    refine List.forall_mem_append.mpr ⟨List.forall_mem_append.mpr ⟨?_, ?_⟩, ih trivial names.2⟩
    · exact says_statements known (cycle_places index)
        (tellsAll_cons (.node trivial) tellsAll_nil)
    · exact says_statements trivial (cycle_places index) <|
        tellsAll_cons (.name (names.1 _ (by simp [PathStep.iris]))) <|
          tellsAll_cons (.name (names.1 _ (by simp [PathStep.iris]))) tellsAll_nil

theorem says_cycle {id : CycleId} {cycle : Cycle} (found : graph.cycles.find? id = some cycle) (index : Nat) :
    ∀ quad ∈ describeCycle id cycle index, graph.Says quad := by
  refine List.forall_mem_append.mpr ⟨says_statements trivial (cycle_places index) (tellsAll_append ?_ ?_), ?_⟩
  · exact tellsAll_type <| tellsAll_cons (.note (.text _)) tellsAll_nil
  · exact tellsAll_each fun type uses => .name (.start found uses)
  · exact says_cycleSteps trivial fun name uses => .chain found uses

/-- Everything in a description is told by the graph. -/
theorem says_quads (fits : ∀ node ∈ graph.patterns, node.pattern.Fits) :
    ∀ quad ∈ graph.quads, graph.Says quad := by
  intro quad member
  simp only [quads, describePatterns, List.mem_append, List.mem_flatMap] at member
  obtain ((((spaces | named) | patterns) | trees) | steps) | cycles := member
  · obtain ⟨⟨space, index⟩, _, described⟩ := spaces
    exact says_space space index quad described
  · obtain ⟨name, known, described⟩ := named
    exact says_variable known quad described
  · obtain ⟨⟨node, id⟩, inside, described⟩ := patterns
    exact says_pattern fits (List.fst_mem_of_mem_zipIdx inside) id quad described
  · obtain ⟨tree, inside, described⟩ := trees
    exact says_tree inside quad described
  · obtain ⟨⟨step, id⟩, inside, described⟩ := steps
    exact says_step (List.fst_mem_of_mem_zipIdx inside) id quad described
  · obtain ⟨⟨⟨id, cycle⟩, index⟩, inside, described⟩ := cycles
    have found := OrderedMap.mem_entries.mp (List.fst_mem_of_mem_zipIdx inside)
    exact says_cycle found index quad described

end
end Graph
end PlanGraph
