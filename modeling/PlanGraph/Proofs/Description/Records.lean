import Mathlib.Data.List.Nodup
import PlanGraph.Proofs.Description.Labels
import PlanGraph.Proofs.Graph.Registry

/-! What a description says of each node. The quads about a node are spread over the description, but
in their order they are the record of that node: its properties, each with all its values. -/

set_option autoImplicit false
namespace PlanGraph
open Rdf (Quad Term Literal)
open Rdf.Vocabulary (rdfType rdfsLabel)

abbrev Record := List (Iri × List Term)

namespace Record

def keys (record : Record) : List Iri := record.map Prod.fst

def pairs (record : Record) : List (Iri × Term) :=
  record.flatMap fun field => field.2.map (field.1, ·)

theorem mem_pairs {record : Record} {property : Iri} {value : Term} :
    (property, value) ∈ record.pairs ↔ ∃ values, (property, values) ∈ record ∧ value ∈ values := by
  simp [pairs]

theorem key_mem_of_mem_pairs {record : Record} {pair : Iri × Term} (member : pair ∈ record.pairs) :
    pair.1 ∈ record.keys := by
  obtain ⟨values, field, _⟩ := mem_pairs.mp member
  exact List.mem_map.mpr ⟨_, field, rfl⟩

theorem pairs_filter_eq_nil {record : Record} {key : Iri} (absent : ¬key ∈ record.keys) :
    record.pairs.filter (fun pair => pair.1 = key) = [] := by
  refine List.filter_eq_nil_iff.mpr ?_
  intro pair member same
  have found := key_mem_of_mem_pairs member
  rw [of_decide_eq_true same] at found
  exact absent found

theorem pairs_cons (key : Iri) (values : List Term) (rest : Record) :
    Record.pairs ((key, values) :: rest) = values.map (key, ·) ++ rest.pairs := rfl

theorem filter_pairs_cons {key : Iri} {rest : Record} (fresh : ¬key ∈ rest.keys)
    (values : List Term) :
    (Record.pairs ((key, values) :: rest)).filter (fun pair => pair.1 = key) = values.map (key, ·) := by
  rw [pairs_cons, List.filter_append, pairs_filter_eq_nil fresh]
  simp [List.filter_map, Function.comp_def]

/-- Where keys do not repeat, the pairs determine the values of each. -/
theorem eq_of_pairs {first second : Record} (keys : first.keys = second.keys)
    (nodup : first.keys.Nodup) (same : first.pairs = second.pairs) : first = second := by
  induction first generalizing second with
  | nil =>
    cases second with
    | nil => rfl
    | cons field rest => cases keys
  | cons field rest ih =>
    cases second with
    | nil => cases keys
    | cons other others =>
      obtain ⟨key, values⟩ := field
      obtain ⟨otherKey, otherValues⟩ := other
      obtain ⟨rfl, tails⟩ := List.cons.inj keys
      obtain ⟨fresh, restNodup⟩ := List.nodup_cons.mp nodup
      have alsoFresh : ¬key ∈ Record.keys others := by
        intro member
        exact fresh (tails ▸ member)
      -- The key is not among the later ones, so the pairs with it are those of the first field.
      have values_eq : values = otherValues := by
        have firsts := congrArg (List.filter fun pair => pair.1 = key) same
        rw [filter_pairs_cons fresh, filter_pairs_cons alsoFresh] at firsts
        have mapped := congrArg (List.map Prod.snd) firsts
        simpa [Function.comp_def] using mapped
      subst values_eq
      rw [ih tails restNodup (List.append_cancel_left same)]

theorem pairs_nodup {record : Record} (keys : record.keys.Nodup)
    (values : ∀ field ∈ record, field.2.Nodup) : record.pairs.Nodup := by
  induction record with
  | nil => exact .nil
  | cons field rest ih =>
    obtain ⟨key, first⟩ := field
    obtain ⟨fresh, restNodup⟩ := List.nodup_cons.mp keys
    have later : (Record.pairs rest).Nodup :=
      ih restNodup fun field member => values field (List.mem_cons_of_mem _ member)
    have here : (first.map (key, ·)).Nodup :=
      List.Nodup.map (fun _ _ same => (Prod.mk.inj same).2) (values _ List.mem_cons_self)
    refine List.nodup_append.mpr ⟨here, later, ?_⟩
    rintro pair inFirst other inRest rfl
    obtain ⟨value, _, rfl⟩ := List.mem_map.mp inFirst
    exact fresh (key_mem_of_mem_pairs inRest)

end Record

/-! What quads say. -/

/-- The properties and values that quads give for a subject, in their order. -/
def said (quads : List Quad) (subject : Term) : List (Iri × Term) :=
  (quads.filter fun quad => quad.subject = subject).map fun quad => (quad.predicate, quad.object)

section
variable {quads : List Quad} {subject : Term}

theorem mem_said {property : Iri} {value : Term} : (property, value) ∈ said quads subject ↔
    ∃ graph, ⟨subject, property, value, graph⟩ ∈ quads := by
  simp only [said, List.mem_map, List.mem_filter, decide_eq_true_eq, Prod.mk.injEq]
  constructor
  · rintro ⟨quad, ⟨member, rfl⟩, rfl, rfl⟩
    exact ⟨quad.graph, member⟩
  · rintro ⟨graph, member⟩
    exact ⟨_, ⟨member, rfl⟩, rfl, rfl⟩

theorem said_append (first second : List Quad) :
    said (first ++ second) subject = said first subject ++ said second subject := by
  simp [said]

theorem said_flatMap {α : Type} (items : List α) (describe : α → List Quad) :
    said (items.flatMap describe) subject = items.flatMap fun item => said (describe item) subject := by
  simp [said, List.filter_flatMap, List.map_flatMap]

theorem said_eq_nil (others : ∀ quad ∈ quads, quad.subject ≠ subject) : said quads subject = [] := by
  have none : quads.filter (fun quad => quad.subject = subject) = [] := by
    simpa [List.filter_eq_nil_iff] using others
  simp [said, none]

theorem said_statements (node other : Node) (graph : Option Term) (values : List (Iri × Term)) :
    said (node.statements graph values) other.term = if node = other then values else [] := by
  by_cases same : node = other
  · simp [said, Node.statements, same, List.filter_map, Function.comp_def]
  · simp [said, Node.statements, same, List.filter_map, Function.comp_def]

end

section
variable {α β : Type}

theorem flatMap_zipIdx {list : List α} {contribution : α → Nat → List β} {place : Nat}
    (off : ∀ value other, other ≠ place → contribution value other = []) :
    list.zipIdx.flatMap (fun entry => contribution entry.1 entry.2) =
      list[place]?.elim [] (contribution · place) := by
  induction list using List.reverseRecOn with
  | nil => rfl
  | append_singleton earlier last ih =>
    rw [List.zipIdx_append, List.flatMap_append, ih]
    -- The element at the place is an earlier one, the last one, or there is none.
    rcases Nat.lt_trichotomy place earlier.length with inside | rfl | outside
    · have other : earlier.length ≠ place := by omega
      simp [List.getElem?_append_left inside, off _ _ other]
    · simp
    · have other : earlier.length ≠ place := by omega
      have before : earlier[place]? = none := List.getElem?_eq_none (by omega)
      have beyond : (earlier ++ [last])[place]? = none :=
        List.getElem?_eq_none (by simp; omega)
      simp [before, beyond, off _ _ other]

theorem flatMap_of_key [DecidableEq β] {γ : Type} {list : List α} {view : α → β} {key : β}
    {contribution : α → List γ} (nodup : (list.map view).Nodup)
    (off : ∀ value, view value ≠ key → contribution value = []) :
    list.flatMap contribution = (list.find? fun value => view value = key).elim [] contribution := by
  induction list with
  | nil => rfl
  | cons first rest ih =>
    obtain ⟨fresh, restNodup⟩ := List.nodup_cons.mp nodup
    rw [List.flatMap_cons, List.find?_cons]
    by_cases same : view first = key
    · have nothing : rest.flatMap contribution = [] := by
        refine List.flatMap_eq_nil_iff.mpr fun value member => off value fun again => fresh ?_
        rw [same, ← again]
        exact List.mem_map_of_mem member
      simp [same, nothing]
    · simp [same, off first same, ih restNodup]

end

/-! The records of the nodes. -/

def spaceRecord (space : SearchSpace) : Record :=
  [(rdfType, [.iri Vocabulary.searchSpace]), (Vocabulary.definedBy, [(Node.pattern space.pattern).term])]

def variableRecord (name : String) : Record :=
  [(rdfType, [.iri Vocabulary.queryVariable]), (rdfsLabel, [textLiteral (variableText name)])]

def literalRecord (literal : Literal) : Record :=
  [(rdfType, [.iri Vocabulary.literal]), (Vocabulary.value, [.literal literal])]

/-- The record of a tree apart from its cycles. -/
def treeFields (tree : SearchTree) : Record :=
  [(rdfType, [.iri Vocabulary.searchTree]), (Vocabulary.fromType, tree.fromTypes.elements.map .iri),
    (Vocabulary.hasSeed, tree.seeds.elements.map .iri), (Vocabulary.length, [numberLiteral tree.length]),
    (Vocabulary.byPattern, tree.patterns.elements.map fun id => (Node.pattern id).term),
    (Vocabulary.next, tree.children.map fun id => (Node.step id).term)]

def cycleRecord (entry : CycleId × Cycle) (index : Nat) : Record :=
  [(rdfType, [.iri Vocabulary.cycle]), (rdfsLabel, [textLiteral entry.1]),
    (Vocabulary.expectedType, entry.2.types.elements.map .iri),
    (Vocabulary.next, (entry.2.steps.head?.map fun _ => (Node.cycleStep index 0).term).toList)]

def cycleStepRecord (index position : Nat) (step : PathStep) (later : List PathStep) : Record :=
  [(Vocabulary.onProperty, [.iri step.property]), (Vocabulary.expectedType, [.iri step.type]),
    (Vocabulary.next, (later.head?.map fun _ => (Node.cycleStep index (position + 1)).term).toList)]

namespace Graph
variable (graph : Graph)

def patternRecord (node : PatternNode) (id : PatternId) : Record :=
  [(rdfType, [.iri Vocabulary.triplePattern]), (rdfsLabel, [textLiteral (Node.pattern id).label]),
    (Vocabulary.subject, (ofPatternTerm? node.pattern.subject).toList),
    (Vocabulary.predicate, [ofPredicate node.pattern.predicate]),
    (Vocabulary.object, (graph.objectNode? node).toList),
    (Vocabulary.checkType, node.check.toList.map boolLiteral)]

def treeRecord (tree : SearchTree) : Record :=
  treeFields tree ++
    [(Vocabulary.goesThroughCycle, (tree.cycles.elements.filterMap graph.cycleNode?).map Node.term)]

def stepRecord (step : Step) : Record :=
  [(Vocabulary.onProperty, step.label.property?.toList.map .iri),
    (Vocabulary.expectedType, step.types.elements.map .iri),
    (Vocabulary.byPattern, step.patterns.elements.map fun id => (Node.pattern id).term),
    (Vocabulary.checkType, step.check.toList.map boolLiteral),
    (Vocabulary.isCycleStartOf, (step.cycleStarts.elements.filterMap graph.cycleNode?).map Node.term),
    (Vocabulary.next, step.children.map fun id => (Node.step id).term)]

def record? : Node → Option Record
  | .space index => graph.spaces[index]?.map spaceRecord
  | .variable name => if name ∈ graph.variableNames then some (variableRecord name) else none
  | .pattern id => graph.patterns[id]?.map (graph.patternRecord · id)
  | .literal index => graph.literals[index]?.map literalRecord
  | .tree fingerprint =>
    (graph.forest.trees.find? fun tree => tree.fingerprint = fingerprint).map graph.treeRecord
  | .step id => graph.forest.steps[id]?.map graph.stepRecord
  | .cycle index => graph.cycles.entries[index]?.map (cycleRecord · index)
  | .cycleStep index position => graph.cycles.entries[index]?.bind fun entry =>
      entry.2.steps[position]?.map fun step =>
        cycleStepRecord index position step (entry.2.steps.drop (position + 1))

end Graph

def Node.keys : Node → List Iri
  | .space _ => [rdfType, Vocabulary.definedBy]
  | .variable _ => [rdfType, rdfsLabel]
  | .pattern _ => [rdfType, rdfsLabel, Vocabulary.subject, Vocabulary.predicate, Vocabulary.object,
      Vocabulary.checkType]
  | .literal _ => [rdfType, Vocabulary.value]
  | .tree _ => [rdfType, Vocabulary.fromType, Vocabulary.hasSeed, Vocabulary.length,
      Vocabulary.byPattern, Vocabulary.next, Vocabulary.goesThroughCycle]
  | .step _ => [Vocabulary.onProperty, Vocabulary.expectedType, Vocabulary.byPattern,
      Vocabulary.checkType, Vocabulary.isCycleStartOf, Vocabulary.next]
  | .cycle _ => [rdfType, rdfsLabel, Vocabulary.expectedType, Vocabulary.next]
  | .cycleStep .. => [Vocabulary.onProperty, Vocabulary.expectedType, Vocabulary.next]

theorem Node.keys_nodup (node : Node) : node.keys.Nodup := by
  cases node <;> simp only [keys] <;> decide

theorem Graph.keys_of_record? {graph : Graph} {node : Node} {record : Record}
    (found : graph.record? node = some record) : record.keys = node.keys := by
  cases node with
  | «variable» name =>
    simp only [record?] at found
    split at found
    · cases found
      rfl
    · cases found
  | cycleStep index position =>
    obtain ⟨entry, _, found⟩ := Option.bind_eq_some_iff.mp found
    obtain ⟨step, _, rfl⟩ := Option.map_eq_some_iff.mp found
    rfl
  | _ =>
    obtain ⟨value, _, rfl⟩ := Option.map_eq_some_iff.mp found
    rfl

end PlanGraph
