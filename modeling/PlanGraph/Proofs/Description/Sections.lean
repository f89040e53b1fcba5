import PlanGraph.Proofs.Description.Records
import PlanGraph.Proofs.Graph.Links

/-! The sections of a description. Every section describes nodes of its own kinds, in the graph where
these belong, and what it says of a node is the record of that node. -/

set_option autoImplicit false
namespace PlanGraph
open Rdf (Quad Term Literal)
open Rdf.Vocabulary (rdfType rdfsLabel)

/-- The graph that a statement about a node belongs to. Trees point to a cycle in the graph of that
cycle. -/
def Node.Places (node : Node) (quad : Quad) : Prop :=
  match node with
  | .space _ | .variable _ | .pattern _ | .literal _ => quad.graph = none
  | .tree _ =>
    if quad.predicate = Vocabulary.goesThroughCycle then
      ∃ index, quad.object = (Node.cycle index).term ∧ quad.graph = some quad.object
    else quad.graph = Graph.treesGraph
  | .step _ => quad.graph = Graph.treesGraph
  | .cycle index | .cycleStep index _ => quad.graph = some (Node.cycle index).term

def Placed (kinds : List NodeKind) (quad : Quad) : Prop :=
  ∃ node : Node, node.kind ∈ kinds ∧ quad.subject = node.term ∧ node.Places quad

theorem placed_of_mem_statements {kinds : List NodeKind} {node : Node} {graph : Option Term}
    {values : List (Iri × Term)} {quad : Quad} (member : quad ∈ node.statements graph values)
    (kind : node.kind ∈ kinds)
    (places : ∀ value ∈ values, node.Places ⟨node.term, value.1, value.2, graph⟩) :
    Placed kinds quad := by
  obtain ⟨value, inside, rfl⟩ := List.mem_map.mp member
  exact ⟨node, kind, rfl, places value inside⟩

theorem said_eq_nil_of_placed {kinds : List NodeKind} {quads : List Quad} {node : Node}
    (placed : ∀ quad ∈ quads, Placed kinds quad) (other : ¬node.kind ∈ kinds) :
    said quads node.term = [] := by
  apply said_eq_nil
  intro quad member same
  obtain ⟨described, kind, subject, _⟩ := placed quad member
  rw [subject, Node.term_inj] at same
  exact other (same ▸ kind)

/-! Cycles and their steps. -/

def Node.Precedes (node : Node) (index position : Nat) : Prop :=
  ∀ later, position ≤ later → node ≠ .cycleStep index later

theorem Node.cycle_precedes (index position : Nat) : (Node.cycle index).Precedes index position := by
  intro later _ same
  cases same

theorem Node.cycleStep_precedes (index position : Nat) :
    (Node.cycleStep index position).Precedes index (position + 1) := by
  intro later beyond same
  cases same
  omega

namespace Graph

theorem describeCycleSteps_subject {index position : Nat} {previous : Node} {steps : List PathStep} :
    ∀ quad ∈ describeCycleSteps index previous position steps,
      quad.graph = some (Node.cycle index).term ∧
        (quad.subject = previous.term ∨
          ∃ later, position ≤ later ∧ quad.subject = (Node.cycleStep index later).term) := by
  induction steps generalizing previous position with
  | nil =>
    intro quad member
    cases member
  | cons step rest ih =>
    intro quad member
    rw [describeCycleSteps, List.mem_append, List.mem_append] at member
    rcases member with (link | fields) | rest
    · obtain ⟨_, _, rfl⟩ := List.mem_map.mp link
      exact ⟨rfl, Or.inl rfl⟩
    · obtain ⟨_, _, rfl⟩ := List.mem_map.mp fields
      exact ⟨rfl, Or.inr ⟨position, Nat.le_refl _, rfl⟩⟩
    · obtain ⟨named, here | ⟨later, beyond, there⟩⟩ := ih quad rest
      · exact ⟨named, Or.inr ⟨position, Nat.le_refl _, here⟩⟩
      · exact ⟨named, Or.inr ⟨later, by omega, there⟩⟩

theorem said_chain_of_ne {index position : Nat} {previous node : Node} {steps : List PathStep}
    (ahead : node.Precedes index position) (other : node ≠ previous) :
    said (describeCycleSteps index previous position steps) node.term = [] := by
  apply said_eq_nil
  intro quad member same
  rcases (describeCycleSteps_subject quad member).2 with here | ⟨later, beyond, there⟩
  · rw [here, Node.term_inj] at same
    exact other same.symm
  · rw [there, Node.term_inj] at same
    exact ahead later beyond same.symm

theorem said_chain_before {index position : Nat} {previous : Node} (steps : List PathStep)
    (ahead : previous.Precedes index position) :
    said (describeCycleSteps index previous position steps) previous.term =
      (steps.head?.map fun _ => (Vocabulary.next, (Node.cycleStep index position).term)).toList := by
  cases steps with
  | nil => rfl
  | cons step rest =>
    have self : Node.cycleStep index position ≠ previous := (ahead position (Nat.le_refl _)).symm
    have later : previous.Precedes index (position + 1) := fun place beyond => ahead place (by omega)
    have tail : said (describeCycleSteps index (Node.cycleStep index position) (position + 1) rest)
        previous.term = [] := said_chain_of_ne later self.symm
    simp [describeCycleSteps, said_append, said_statements, self, tail]

theorem said_chain {index position : Nat} {previous : Node} (steps : List PathStep)
    (ahead : previous.Precedes index position) (place : Nat) :
    said (describeCycleSteps index previous position steps)
        (Node.cycleStep index (position + place)).term =
      steps[place]?.elim [] fun step =>
        (cycleStepRecord index (position + place) step (steps.drop (place + 1))).pairs := by
  induction steps generalizing previous position place with
  | nil => rfl
  | cons step rest ih =>
    have other : previous ≠ Node.cycleStep index (position + place) := ahead _ (by omega)
    rw [describeCycleSteps, said_append, said_append, said_statements, said_statements, if_neg other]
    cases place with
    | zero =>
      have next : said (describeCycleSteps index (Node.cycleStep index position) (position + 1) rest)
          (Node.cycleStep index position).term = _ :=
        said_chain_before rest (Node.cycleStep_precedes index position)
      rw [Nat.add_zero, if_pos rfl, next]
      cases rest <;> rfl
    | succ place =>
      have self : Node.cycleStep index position ≠ Node.cycleStep index (position + (place + 1)) := by
        simp
      have shifted : position + (place + 1) = position + 1 + place := by omega
      rw [if_neg self, shifted, ih (Node.cycleStep_precedes index position)]
      simp

/-! The sections. -/

variable (graph : Graph)

def spaceQuads : List Quad :=
  graph.spaces.zipIdx.flatMap fun (space, index) => describeSpace space index

def variableQuads : List Quad := graph.variableNames.elements.flatMap describeVariable

def treeQuads : List Quad := graph.forest.trees.flatMap graph.describeTree

def stepQuads : List Quad := graph.forest.steps.zipIdx.flatMap fun (step, id) => graph.describeStep step id

def cycleQuads : List Quad :=
  graph.cycles.entries.zipIdx.flatMap fun ((id, cycle), index) => describeCycle id cycle index

theorem quads_eq_sections : graph.quads = graph.spaceQuads ++ graph.variableQuads ++
    graph.describePatterns ++ graph.treeQuads ++ graph.stepQuads ++ graph.cycleQuads := rfl

variable {graph}

theorem placed_spaceQuads : ∀ quad ∈ graph.spaceQuads, Placed [.space] quad := by
  intro quad member
  obtain ⟨entry, _, described⟩ := List.mem_flatMap.mp member
  exact placed_of_mem_statements described (by simp [Node.kind]) fun _ _ => rfl

theorem placed_variableQuads : ∀ quad ∈ graph.variableQuads, Placed [.variable] quad := by
  intro quad member
  obtain ⟨name, _, described⟩ := List.mem_flatMap.mp member
  exact placed_of_mem_statements described (by simp [Node.kind]) fun _ _ => rfl

theorem placed_describePatterns : ∀ quad ∈ graph.describePatterns, Placed [.pattern, .literal] quad := by
  intro quad member
  obtain ⟨entry, _, described⟩ := List.mem_flatMap.mp member
  unfold describePattern at described
  rw [List.mem_append, List.mem_append] at described
  rcases described with (first | literal) | last
  · exact placed_of_mem_statements first (by simp [Node.kind]) fun _ _ => rfl
  · obtain ⟨value, _, described⟩ := List.mem_flatMap.mp literal
    exact placed_of_mem_statements described (by simp [Node.kind, literalNode]) fun _ _ => rfl
  · exact placed_of_mem_statements last (by simp [Node.kind]) fun _ _ => rfl

theorem treeFields_eq (tree : SearchTree) :
    [(rdfType, Term.iri Vocabulary.searchTree)]
        ++ each Vocabulary.fromType .iri tree.fromTypes.elements
        ++ each Vocabulary.hasSeed .iri tree.seeds.elements
        ++ [(Vocabulary.length, numberLiteral tree.length)]
        ++ each Vocabulary.byPattern (fun id => (Node.pattern id).term) tree.patterns.elements
        ++ each Vocabulary.next (fun id => (Node.step id).term) tree.children =
      (treeFields tree).pairs := by
  simp [treeFields, Record.pairs, each, Function.comp_def]

theorem placed_treeQuads : ∀ quad ∈ graph.treeQuads, Placed [.tree] quad := by
  intro quad member
  obtain ⟨tree, _, described⟩ := List.mem_flatMap.mp member
  unfold describeTree at described
  rw [List.mem_append] at described
  rcases described with fields | link
  · rw [treeFields_eq] at fields
    refine placed_of_mem_statements fields (by simp [Node.kind]) ?_
    intro value inside
    have key : value.1 ∈ (treeFields tree).keys := Record.key_mem_of_mem_pairs inside
    have other : value.1 ≠ Vocabulary.goesThroughCycle := by
      intro same
      rw [same] at key
      revert key
      exact (by decide : ¬Vocabulary.goesThroughCycle ∈ [rdfType, Vocabulary.fromType,
        Vocabulary.hasSeed, Vocabulary.length, Vocabulary.byPattern, Vocabulary.next])
    simp [Node.Places, other]
  · obtain ⟨cycle, inside, rfl⟩ := List.mem_map.mp link
    obtain ⟨id, _, found⟩ := List.mem_filterMap.mp inside
    obtain ⟨index, _, rfl⟩ := Option.map_eq_some_iff.mp found
    exact ⟨.tree tree.fingerprint, by simp [Node.kind], rfl, by simp [Node.Places]⟩

theorem placed_stepQuads : ∀ quad ∈ graph.stepQuads, Placed [.step] quad := by
  intro quad member
  obtain ⟨entry, _, described⟩ := List.mem_flatMap.mp member
  exact placed_of_mem_statements described (by simp [Node.kind]) fun _ _ => rfl

theorem placed_cycleQuads : ∀ quad ∈ graph.cycleQuads, Placed [.cycle] quad := by
  intro quad member
  obtain ⟨⟨⟨id, cycle⟩, index⟩, _, described⟩ := List.mem_flatMap.mp member
  unfold describeCycle at described
  rw [List.mem_append] at described
  rcases described with fields | chain
  · exact placed_of_mem_statements fields (by simp [Node.kind]) fun _ _ => rfl
  · obtain ⟨named, here | ⟨later, _, there⟩⟩ := describeCycleSteps_subject quad chain
    · exact ⟨.cycle index, by simp [Node.kind], here, named⟩
    · exact ⟨.cycleStep index later, by simp [Node.kind], there, named⟩

/-- What is said of a node is said in the section of its kind. -/
theorem said_quads_eq_section (node : Node) : said graph.quads node.term =
    match node.kind with
    | .space => said graph.spaceQuads node.term
    | .variable => said graph.variableQuads node.term
    | .pattern | .literal => said graph.describePatterns node.term
    | .tree => said graph.treeQuads node.term
    | .step => said graph.stepQuads node.term
    | .cycle => said graph.cycleQuads node.term := by
  have spaces : ¬node.kind ∈ [NodeKind.space] → said graph.spaceQuads node.term = [] :=
    said_eq_nil_of_placed placed_spaceQuads
  have names : ¬node.kind ∈ [NodeKind.variable] → said graph.variableQuads node.term = [] :=
    said_eq_nil_of_placed placed_variableQuads
  have patterns : ¬node.kind ∈ [NodeKind.pattern, .literal] →
      said graph.describePatterns node.term = [] := said_eq_nil_of_placed placed_describePatterns
  have trees : ¬node.kind ∈ [NodeKind.tree] → said graph.treeQuads node.term = [] :=
    said_eq_nil_of_placed placed_treeQuads
  have steps : ¬node.kind ∈ [NodeKind.step] → said graph.stepQuads node.term = [] :=
    said_eq_nil_of_placed placed_stepQuads
  have cycles : ¬node.kind ∈ [NodeKind.cycle] → said graph.cycleQuads node.term = [] :=
    said_eq_nil_of_placed placed_cycleQuads
  simp only [quads_eq_sections, said_append]
  cases kind : node.kind <;> simp_all

theorem said_space (index : Nat) : said graph.spaceQuads (Node.space index).term =
    graph.spaces[index]?.elim [] fun space => (spaceRecord space).pairs := by
  have off (space : SearchSpace) (other : Nat) (differs : other ≠ index) :
      said (describeSpace space other) (Node.space index).term = [] := by
    simp [describeSpace, said_statements, differs]
  rw [spaceQuads, said_flatMap, flatMap_zipIdx off]
  refine congrArg _ (funext fun space => ?_)
  simp [describeSpace, said_statements, spaceRecord, Record.pairs]

theorem said_variable (name : String) : said graph.variableQuads (Node.variable name).term =
    if name ∈ graph.variableNames then (variableRecord name).pairs else [] := by
  have off (other : String) (differs : other ≠ name) :
      said (describeVariable other) (Node.variable name).term = [] := by
    simp [describeVariable, said_statements, differs]
  have nodup : (graph.variableNames.elements.map id).Nodup := by
    rw [List.map_id]
    exact graph.variableNames.nodup
  rw [variableQuads, said_flatMap, flatMap_of_key nodup off]
  cases found : graph.variableNames.elements.find? fun other => id other = name with
  | none =>
    have absent : ¬name ∈ graph.variableNames := by
      intro listed
      simpa using List.find?_eq_none.mp found name listed
    simp [absent]
  | some other =>
    obtain rfl : other = name := by simpa using List.find?_some found
    have listed : other ∈ graph.variableNames := List.mem_of_find?_eq_some found
    simp [listed, describeVariable, said_statements, variableRecord, Record.pairs]

def newLiteral? (earlier : List PatternNode) (node : PatternNode) : Option Literal :=
  node.literal?.filter fun literal => !(earlier.filterMap PatternNode.literal?).contains literal

/-- The literals that are described at their first pattern are all literals, in their order. -/
theorem flatMap_newLiteral? (patterns : List PatternNode) :
    (patterns.zipIdx.flatMap fun entry => (newLiteral? (patterns.take entry.2) entry.1).toList) =
      (patterns.filterMap PatternNode.literal?).eraseDups := by
  induction patterns using List.reverseRecOn with
  | nil => rfl
  | append_singleton earlier last ih =>
    -- Earlier patterns have the same patterns before them as they had without the last one.
    have before : (earlier.zipIdx.flatMap fun entry =>
        (newLiteral? ((earlier ++ [last]).take entry.2) entry.1).toList) =
          (earlier.filterMap PatternNode.literal?).eraseDups := by
      rw [← ih]
      refine List.flatMap_congr fun entry member => ?_
      have inside : entry.2 ≤ earlier.length := Nat.le_of_lt (by simpa using (List.mem_zipIdx member).2.1)
      rw [List.take_append_of_le_length inside]
    have final : ([last].zipIdx earlier.length).flatMap (fun entry =>
        (newLiteral? ((earlier ++ [last]).take entry.2) entry.1).toList) =
          (newLiteral? earlier last).toList := by
      simp only [List.zipIdx_cons, List.zipIdx_nil, List.flatMap_cons, List.flatMap_nil,
        List.append_nil, List.take_left]
    rw [List.zipIdx_append, List.flatMap_append, before, Nat.zero_add, final, List.filterMap_append]
    cases object : last.literal? with
    | none => simp [newLiteral?, object]
    | some literal =>
      have whole : List.filterMap PatternNode.literal? [last] = [literal] := by simp [object]
      rw [whole, eraseDups_concat]
      by_cases known : literal ∈ earlier.filterMap PatternNode.literal?
      · have old : newLiteral? earlier last = none := by
          simp only [newLiteral?, object, Option.filter_some, List.contains_iff_mem.mpr known]
          rfl
        simp [old, known]
      · have new : newLiteral? earlier last = some literal := by
          have fresh : (earlier.filterMap PatternNode.literal?).contains literal = false :=
            Bool.eq_false_iff.mpr fun found => known (List.contains_iff_mem.mp found)
          simp only [newLiteral?, object, Option.filter_some, fresh]
          rfl
        rw [new, if_neg known]
        rfl

theorem said_describeLiterals (literals : List Literal) (id : PatternId) :
    said (literals.flatMap graph.describeLiteral) (Node.pattern id).term = [] := by
  apply said_eq_nil
  intro quad member
  obtain ⟨literal, _, described⟩ := List.mem_flatMap.mp member
  obtain ⟨value, _, rfl⟩ := List.mem_map.mp described
  simp [literalNode]

theorem said_pattern (id : PatternId) : said graph.describePatterns (Node.pattern id).term =
    graph.patterns[id]?.elim [] fun node => (graph.patternRecord node id).pairs := by
  have off (node : PatternNode) (other : PatternId) (differs : other ≠ id) :
      said (graph.describePattern (graph.patterns.take other) node other) (Node.pattern id).term = [] := by
    simp [describePattern, said_append, said_describeLiterals, said_statements, differs]
  rw [describePatterns, said_flatMap, flatMap_zipIdx off]
  refine congrArg _ (funext fun node => ?_)
  simp [describePattern, said_append, said_describeLiterals, said_statements, patternRecord,
    Record.pairs, each, Function.comp_def]

theorem literals_nodup (graph : Graph) : graph.literals.Nodup := nodup_eraseDups _

theorem said_literal (index : Nat) : said graph.describePatterns (Node.literal index).term =
    graph.literals[index]?.elim [] fun literal => (literalRecord literal).pairs := by
  -- Patterns say of a literal node what the descriptions of new literals say of it.
  have each_pattern (entry : PatternNode × Nat) :
      said (graph.describePattern (graph.patterns.take entry.2) entry.1 entry.2)
          (Node.literal index).term =
        (newLiteral? (graph.patterns.take entry.2) entry.1).toList.flatMap fun literal =>
            said (graph.describeLiteral literal) (Node.literal index).term := by
    rw [describePattern, said_append, said_append, said_statements, said_statements, said_flatMap,
      if_neg (by simp), if_neg (by simp), List.nil_append, List.append_nil]
    rfl
  have gathered : said graph.describePatterns (Node.literal index).term =
      graph.literals.flatMap fun literal =>
        said (graph.describeLiteral literal) (Node.literal index).term := by
    rw [describePatterns, said_flatMap, literals, ← flatMap_newLiteral?, List.flatMap_assoc]
    exact List.flatMap_congr fun entry _ => each_pattern entry
  have numbered : ∀ entry ∈ graph.literals.zipIdx,
      said (graph.describeLiteral entry.1) (Node.literal index).term =
        if entry.2 = index then (literalRecord entry.1).pairs else [] := by
    intro entry member
    obtain ⟨bound, same⟩ := List.getElem?_eq_some_iff.mp (List.mem_zipIdx_iff_getElem?.mp member)
    have place : graph.literals.idxOf entry.1 = entry.2 := by
      rw [← same]
      exact graph.literals_nodup.idxOf_getElem entry.2 bound
    simp [describeLiteral, literalNode, said_statements, place, literalRecord, Record.pairs]
  have off (literal : Literal) (other : Nat) (differs : other ≠ index) :
      (if other = index then (literalRecord literal).pairs else []) = [] := if_neg differs
  rw [gathered]
  conv_lhs => rw [← List.zipIdx_map_fst 0 graph.literals]
  rw [List.flatMap_map, List.flatMap_congr numbered, flatMap_zipIdx off]
  simp

theorem said_tree (nodup : graph.forest.fingerprints.Nodup) (fingerprint : Fingerprint) :
    said graph.treeQuads (Node.tree fingerprint).term =
      (graph.forest.trees.find? fun tree => tree.fingerprint = fingerprint).elim [] fun tree =>
        (graph.treeRecord tree).pairs := by
  have links (tree : SearchTree) (cycles : List Node) : said (cycles.map fun cycle =>
      (⟨(Node.tree tree.fingerprint).term, Vocabulary.goesThroughCycle, cycle.term, some cycle.term⟩ : Quad))
        (Node.tree fingerprint).term =
      if tree.fingerprint = fingerprint then each Vocabulary.goesThroughCycle Node.term cycles else [] := by
    by_cases same : tree.fingerprint = fingerprint
    · simp [said, same, List.filter_map, Function.comp_def, each]
    · simp [said, same, List.filter_map, Function.comp_def]
  have off (tree : SearchTree) (differs : tree.fingerprint ≠ fingerprint) :
      said (graph.describeTree tree) (Node.tree fingerprint).term = [] := by
    simp [describeTree, said_append, said_statements, links, differs]
  rw [treeQuads, said_flatMap, flatMap_of_key nodup off]
  cases found : graph.forest.trees.find? fun tree => tree.fingerprint = fingerprint with
  | none => rfl
  | some tree =>
    have same : tree.fingerprint = fingerprint := by simpa using List.find?_some found
    simp only [Option.elim_some]
    rw [describeTree, treeFields_eq, said_append, said_statements, links, if_pos (by rw [same]), if_pos same]
    simp [treeRecord, Record.pairs, each]

theorem said_step (id : StepId) : said graph.stepQuads (Node.step id).term =
    graph.forest.steps[id]?.elim [] fun step => (graph.stepRecord step).pairs := by
  have off (step : Step) (other : StepId) (differs : other ≠ id) :
      said (graph.describeStep step other) (Node.step id).term = [] := by
    simp [describeStep, said_statements, differs]
  rw [stepQuads, said_flatMap, flatMap_zipIdx off]
  refine congrArg _ (funext fun step => ?_)
  simp [describeStep, said_statements, stepRecord, Record.pairs, each, Function.comp_def]

theorem said_cycle (index : Nat) : said graph.cycleQuads (Node.cycle index).term =
    graph.cycles.entries[index]?.elim [] fun entry => (cycleRecord entry index).pairs := by
  have off (entry : CycleId × Cycle) (other : Nat) (differs : other ≠ index) :
      said (describeCycle entry.1 entry.2 other) (Node.cycle index).term = [] := by
    have differs : Node.cycle other ≠ Node.cycle index := by simpa using differs
    have ahead : (Node.cycle index).Precedes other 0 := fun _ _ same => nomatch same
    rw [describeCycle, said_append, said_statements, if_neg differs, said_chain_of_ne ahead differs.symm]
    rfl
  rw [cycleQuads, said_flatMap, flatMap_zipIdx off]
  refine congrArg _ (funext fun entry => ?_)
  obtain ⟨id, types, steps⟩ := entry
  rw [describeCycle, said_append, said_statements, if_pos rfl,
    said_chain_before _ (Node.cycle_precedes index 0)]
  cases steps <;> simp [cycleRecord, Record.pairs, each, Function.comp_def]

theorem said_cycleStep (index position : Nat) :
    said graph.cycleQuads (Node.cycleStep index position).term =
      graph.cycles.entries[index]?.elim [] fun entry => entry.2.steps[position]?.elim [] fun step =>
        (cycleStepRecord index position step (entry.2.steps.drop (position + 1))).pairs := by
  have other_node (other : Nat) : Node.cycle other ≠ Node.cycleStep index position := by simp
  have off (entry : CycleId × Cycle) (other : Nat) (differs : other ≠ index) :
      said (describeCycle entry.1 entry.2 other) (Node.cycleStep index position).term = [] := by
    have ahead : (Node.cycleStep index position).Precedes other 0 := by
      intro later _ same
      cases same
      exact differs rfl
    rw [describeCycle, said_append, said_statements, if_neg (other_node other),
      said_chain_of_ne ahead (other_node other).symm]
    rfl
  rw [cycleQuads, said_flatMap, flatMap_zipIdx off]
  refine congrArg _ (funext fun entry => ?_)
  have chain := said_chain entry.2.steps (Node.cycle_precedes index 0) position
  rw [Nat.zero_add] at chain
  rw [describeCycle, said_append, said_statements, if_neg (other_node index), chain]
  rfl

/-- What the description says of a node is the record of the node, and nothing of other nodes. -/
theorem said_quads (nodup : graph.forest.fingerprints.Nodup) (node : Node) :
    said graph.quads node.term = (graph.record? node).elim [] Record.pairs := by
  rw [said_quads_eq_section]
  cases node with
  | space index => exact (said_space index).trans (Option.elim_map ..).symm
  | «variable» name =>
    refine (said_variable name).trans ?_
    by_cases listed : name ∈ graph.variableNames <;> simp [record?, listed]
  | pattern id => exact (said_pattern id).trans (Option.elim_map ..).symm
  | literal index => exact (said_literal index).trans (Option.elim_map ..).symm
  | tree fingerprint => exact (said_tree nodup fingerprint).trans (Option.elim_map ..).symm
  | step id => exact (said_step id).trans (Option.elim_map ..).symm
  | cycle index => exact (said_cycle index).trans (Option.elim_map ..).symm
  | cycleStep index position =>
    refine (said_cycleStep index position).trans ?_
    simp only [record?]
    cases graph.cycles.entries[index]? with
    | none => rfl
    | some entry => exact (Option.elim_map ..).symm

end Graph
end PlanGraph
