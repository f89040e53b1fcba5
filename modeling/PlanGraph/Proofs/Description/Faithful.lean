import PlanGraph.Proofs.Description.Describable
import PlanGraph.Proofs.Graph.Trie

/-! The description loses nothing. Every record is read back from what is said of its node, trees are
listed in their order, and a step hangs below the node that has it as a child; so the quads determine the
graph up to the contexts of its spaces and its prefixes. -/

set_option autoImplicit false
namespace PlanGraph
open Rdf (Quad Term Literal)
open Rdf.Vocabulary (rdfType rdfsLabel)

/-! Values that tell what they stand for. -/

theorem textLiteral_injective : Function.Injective textLiteral := by
  intro first second same
  simpa [textLiteral] using same

theorem numberLiteral_injective : Function.Injective numberLiteral := by
  intro first second same
  refine Node.toString_injective ?_
  simpa [numberLiteral] using same

theorem boolLiteral_injective : Function.Injective boolLiteral := by
  intro first second same
  cases first <;> cases second <;> first | rfl | exact absurd same (by decide)

theorem iri_injective : Function.Injective Term.iri := fun _ _ same => Term.iri.inj same

theorem patternTerm_injective : Function.Injective fun id => (Node.pattern id).term := by
  intro first second same
  simpa using same

theorem stepTerm_injective : Function.Injective fun id => (Node.step id).term := by
  intro first second same
  simpa using same

theorem term_injective : Function.Injective Node.term := fun _ _ same => Node.term_inj.mp same

theorem OrderedSet.eq_of_map_elements {α β : Type} [LT α] {image : α → β}
    (injective : Function.Injective image) {first second : OrderedSet α}
    (same : first.elements.map image = second.elements.map image) : first = second :=
  eq_of_elements (List.map_injective_iff.mpr injective same)

theorem eq_of_toList {α : Type} {first second : Option α} (same : first.toList = second.toList) :
    first = second := by
  cases first <;> cases second <;> simp_all

theorem eq_of_map_toList {α β : Type} {image : α → β} (injective : Function.Injective image)
    {first second : Option α} (same : first.toList.map image = second.toList.map image) :
    first = second :=
  eq_of_toList (List.map_injective_iff.mpr injective same)

theorem PatternTerm.not_blank_of_fits {term : PatternTerm} {position : Position}
    (fits : term.fits position = true) (label : String) : term ≠ .fixed (.blank label) := by
  rintro rfl
  cases position <;> cases fits

theorem ofPatternTerm?_injective {first second : PatternTerm}
    (named : ∀ label, first ≠ .fixed (.blank label)) (also : ∀ label, second ≠ .fixed (.blank label))
    (same : ofPatternTerm? first = ofPatternTerm? second) : first = second := by
  cases first with
  | «variable» name =>
    cases second with
    | «variable» other => simpa [ofPatternTerm?] using same
    | fixed term => cases term <;> simp [ofPatternTerm?, Node.term] at same
  | fixed term =>
    cases term with
    | blank label => exact absurd rfl (named label)
    | iri name =>
      cases second with
      | «variable» other => simp [ofPatternTerm?, Node.term] at same
      | fixed other => cases other <;> simp_all [ofPatternTerm?]
    | literal value =>
      cases second with
      | «variable» other => simp [ofPatternTerm?, Node.term] at same
      | fixed other => cases other <;> simp_all [ofPatternTerm?]

theorem ofPatternTerm?_ne_literal (term : PatternTerm) (index : Nat) :
    ofPatternTerm? term ≠ some (Node.literal index).term := by
  intro same
  cases term with
  | «variable» name => simp [ofPatternTerm?] at same
  | fixed term => cases term <;> simp [ofPatternTerm?, Node.term] at same

/-! Lists that are read back from records. -/

theorem map_eq_of_records {α γ : Type} {first second : List α} {view : α → γ}
    {record other : α → Nat → Record}
    (same : ∀ place : Nat, first[place]?.map (record · place) = second[place]?.map (other · place))
    (determines : ∀ {place : Nat} {value also : α}, first[place]? = some value →
      second[place]? = some also → record value place = other also place → view value = view also) :
    first.map view = second.map view := by
  refine List.ext_getElem? fun place => ?_
  rw [List.getElem?_map, List.getElem?_map]
  have here := same place
  cases found : first[place]? with
  | none =>
    cases there : second[place]? with
    | none => rfl
    | some also => simp [found, there] at here
  | some value =>
    cases there : second[place]? with
    | none => simp [found, there] at here
    | some also =>
      rw [found, there] at here
      exact congrArg some (determines found there (Option.some.inj here))

theorem eq_of_records {α : Type} {first second : List α} {record other : α → Nat → Record}
    (same : ∀ place : Nat, first[place]?.map (record · place) = second[place]?.map (other · place))
    (determines : ∀ {place : Nat} {value also : α}, first[place]? = some value →
      second[place]? = some also → record value place = other also place → value = also) :
    first = second := by
  have mapped : first.map id = second.map id := map_eq_of_records same determines
  simpa using mapped

theorem filterMap_injective {α β : Type} {image : α → Option β} {first second : List α}
    (injective : ∀ {value also : α} {found : β}, image value = some found → image also = some found →
      value = also)
    (total : ∀ value ∈ first, ∃ found, image value = some found)
    (alsoTotal : ∀ value ∈ second, ∃ found, image value = some found)
    (same : first.filterMap image = second.filterMap image) : first = second := by
  induction first generalizing second with
  | nil =>
    cases second with
    | nil => rfl
    | cons other others =>
      obtain ⟨found, there⟩ := alsoTotal other List.mem_cons_self
      simp [there] at same
  | cons value rest ih =>
    obtain ⟨found, here⟩ := total value List.mem_cons_self
    cases second with
    | nil => simp [here] at same
    | cons other others =>
      obtain ⟨also, there⟩ := alsoTotal other List.mem_cons_self
      rw [List.filterMap_cons_some here, List.filterMap_cons_some there] at same
      obtain ⟨rfl, tails⟩ := List.cons.inj same
      have values : value = other := injective here there
      have later := ih (fun value member => total value (List.mem_cons_of_mem _ member))
        (fun value member => alsoTotal value (List.mem_cons_of_mem _ member)) tails
      rw [values, later]

namespace Graph
variable {graph other : Graph}

theorem literals_eq (records : ∀ node, graph.record? node = other.record? node) :
    graph.literals = other.literals := by
  refine eq_of_records (fun place => records (.literal place)) ?_
  intro _ literal also _ _ same
  simpa [literalRecord] using same

theorem literal?_eq_some {node : PatternNode} {literal : Literal} :
    node.literal? = some literal ↔ node.pattern.object = .fixed (.literal literal) := by
  unfold PatternNode.literal?
  split <;> simp_all

theorem mem_literals {node : PatternNode} {literal : Literal} (member : node ∈ graph.patterns)
    (object : node.literal? = some literal) : literal ∈ graph.literals :=
  List.mem_eraseDups.mpr (List.mem_filterMap.mpr ⟨node, member, object⟩)

theorem object_eq {node also : PatternNode} (literals : graph.literals = other.literals)
    (member : node ∈ graph.patterns) (fits : node.pattern.Fits)
    (alsoFits : also.pattern.Fits) (same : graph.objectNode? node = other.objectNode? also) :
    node.pattern.object = also.pattern.object := by
  unfold objectNode? at same
  cases first : node.literal? with
  | none =>
    cases second : also.literal? with
    | none =>
      rw [first, second] at same
      exact ofPatternTerm?_injective (PatternTerm.not_blank_of_fits fits.object)
        (PatternTerm.not_blank_of_fits alsoFits.object) same
    | some literal =>
      rw [first, second] at same
      exact absurd same (ofPatternTerm?_ne_literal _ _)
  | some literal =>
    cases second : also.literal? with
    | none =>
      rw [first, second] at same
      exact absurd same.symm (ofPatternTerm?_ne_literal _ _)
    | some value =>
      rw [first, second] at same
      -- The two literals share a node, so they have the same place among the same literals.
      have places : graph.literals.idxOf literal = graph.literals.idxOf value := by
        simpa [literalNode, literals] using same
      have listed := mem_literals member first
      have equal : literal = value := List.idxOf_inj listed |>.mp places
      rw [literal?_eq_some.mp first, literal?_eq_some.mp second, equal]

theorem patterns_eq (describable : graph.Describable) (also : other.Describable)
    (records : ∀ node, graph.record? node = other.record? node) : graph.patterns = other.patterns := by
  refine eq_of_records (fun place => records (.pattern place)) ?_
  intro _ node second found there same
  have member := List.mem_of_getElem? found
  have fits := describable.fits node member
  have alsoFits := also.fits second (List.mem_of_getElem? there)
  simp only [patternRecord, List.cons.injEq, Prod.mk.injEq, true_and, and_true] at same
  obtain ⟨subject, predicate, object, check⟩ := same
  have subjects : node.pattern.subject = second.pattern.subject :=
    ofPatternTerm?_injective (PatternTerm.not_blank_of_fits fits.subject)
      (PatternTerm.not_blank_of_fits alsoFits.subject) (eq_of_toList subject)
  have predicates : node.pattern.predicate = second.pattern.predicate := by
    obtain ⟨name, named⟩ := fits.predicate
    obtain ⟨otherName, alsoNamed⟩ := alsoFits.predicate
    rw [named, alsoNamed] at predicate ⊢
    simpa [ofPredicate] using predicate
  have objects : node.pattern.object = second.pattern.object :=
    object_eq (literals_eq records) member fits alsoFits (eq_of_toList object)
  have checks : node.check = second.check := eq_of_map_toList boolLiteral_injective check
  obtain ⟨⟨_, _, _⟩, _⟩ := node
  obtain ⟨⟨_, _, _⟩, _⟩ := second
  cases subjects
  cases predicates
  cases objects
  cases checks
  rfl

theorem spaces_eq (records : ∀ node, graph.record? node = other.record? node) :
    graph.spaces.map SearchSpace.pattern = other.spaces.map SearchSpace.pattern := by
  refine map_eq_of_records (fun place => records (.space place)) ?_
  intro _ space also _ _ same
  simpa [spaceRecord] using same

theorem steps_eq_of_records {index : Nat} {steps others : List PathStep}
    (same : ∀ place : Nat,
      steps[place]?.map (fun step => cycleStepRecord index place step (steps.drop (place + 1))) =
        others[place]?.map fun step => cycleStepRecord index place step (others.drop (place + 1))) :
    steps = others := by
  refine @eq_of_records _ steps others (fun step place => cycleStepRecord index place step _)
    (fun step place => cycleStepRecord index place step _) same ?_
  intro _ step also _ _ records
  simp only [cycleStepRecord, List.cons.injEq, Prod.mk.injEq, Term.iri.injEq, true_and,
    and_true] at records
  obtain ⟨property, type, _⟩ := records
  obtain ⟨_, _⟩ := step
  obtain ⟨_, _⟩ := also
  cases property
  cases type
  rfl

theorem cycles_eq (records : ∀ node, graph.record? node = other.record? node) :
    graph.cycles = other.cycles := by
  have entries : graph.cycles.entries = other.cycles.entries := by
    refine List.ext_getElem? fun index => ?_
    have here := records (.cycle index)
    have steps (place : Nat) := records (.cycleStep index place)
    simp only [record?] at here steps
    cases first : graph.cycles.entries[index]? with
    | none =>
      cases second : other.cycles.entries[index]? with
      | none => rfl
      | some also => simp [first, second] at here
    | some entry =>
      cases second : other.cycles.entries[index]? with
      | none => simp [first, second] at here
      | some also =>
        simp only [first, second, Option.bind_some] at steps
        simp only [first, second, Option.map_some, Option.some.injEq, cycleRecord, List.cons.injEq,
          Prod.mk.injEq, true_and, and_true] at here
        obtain ⟨label, types, _⟩ := here
        obtain ⟨id, cycle, chain⟩ := entry
        obtain ⟨otherId, otherCycle, otherChain⟩ := also
        cases textLiteral_injective label
        cases OrderedSet.eq_of_map_elements iri_injective types
        cases steps_eq_of_records steps
        rfl
  exact OrderedMap.ext fun id => congrArg (OrderedMap.lookupIn id) entries

/-! Trees and steps. -/

theorem cycleNode?_congr (cycles : graph.cycles = other.cycles) :
    graph.cycleNode? = other.cycleNode? := by
  funext id
  rw [cycleNode?, cycles]
  rfl

theorem references_eq (cycles : graph.cycles = other.cycles) {first second : OrderedSet CycleId}
    (described : ∀ id, id ∈ first → graph.cycles.contains id = true)
    (also : ∀ id, id ∈ second → other.cycles.contains id = true)
    (same : (first.elements.filterMap graph.cycleNode?).map Node.term =
      (second.elements.filterMap other.cycleNode?).map Node.term) : first = second := by
  have total {graph : Graph} {ids : OrderedSet CycleId}
      (described : ∀ id, id ∈ ids → graph.cycles.contains id = true) :
      ∀ id ∈ ids.elements, ∃ node, graph.cycleNode? id = some node := by
    intro id member
    obtain ⟨index, _, _, found⟩ := exists_cycleNode (described id member)
    exact ⟨.cycle index, found⟩
  have nodes := List.map_injective_iff.mpr term_injective same
  have alsoTotal := total also
  rw [← cycleNode?_congr cycles] at nodes alsoTotal
  exact OrderedSet.eq_of_elements
    (filterMap_injective cycleNode?_injective (total described) alsoTotal nodes)

theorem tree_eq (cycles : graph.cycles = other.cycles) {tree also : SearchTree}
    (described : ∀ id, id ∈ tree.cycles → graph.cycles.contains id = true)
    (alsoDescribed : ∀ id, id ∈ also.cycles → other.cycles.contains id = true)
    (fingerprint : tree.fingerprint = also.fingerprint)
    (same : graph.treeRecord tree = other.treeRecord also) : tree = also := by
  simp only [treeRecord, treeFields, List.cons_append, List.nil_append, List.cons.injEq, Prod.mk.injEq,
    true_and, and_true] at same
  obtain ⟨types, seeds, length, patterns, children, links⟩ := same
  have linked := references_eq cycles described alsoDescribed links
  obtain ⟨_, _, _, _, _, _, _⟩ := tree
  obtain ⟨_, _, _, _, _, _, _⟩ := also
  cases fingerprint
  cases OrderedSet.eq_of_map_elements iri_injective types
  cases OrderedSet.eq_of_map_elements iri_injective seeds
  cases numberLiteral_injective length
  cases OrderedSet.eq_of_map_elements patternTerm_injective patterns
  cases List.map_injective_iff.mpr stepTerm_injective children
  cases linked
  rfl

/-- All but the parent of a step is read back from its record. -/
theorem step_eq (cycles : graph.cycles = other.cycles) {step also : Step}
    (described : ∀ id, id ∈ step.cycleStarts → graph.cycles.contains id = true)
    (alsoDescribed : ∀ id, id ∈ also.cycleStarts → other.cycles.contains id = true)
    (same : graph.stepRecord step = other.stepRecord also) :
    { step with parent := also.parent } = also := by
  simp only [stepRecord, List.cons.injEq, Prod.mk.injEq, true_and, and_true] at same
  obtain ⟨property, types, patterns, check, starts, children⟩ := same
  have started := references_eq cycles described alsoDescribed starts
  have properties := eq_of_map_toList iri_injective property
  obtain ⟨_, label, _, _, _, _, _⟩ := step
  obtain ⟨_, otherLabel, _, _, _, _, _⟩ := also
  have labels : label = otherLabel := by
    cases label <;> cases otherLabel <;> simp_all [StepLabel.property?]
  cases labels
  cases OrderedSet.eq_of_map_elements iri_injective types
  cases OrderedSet.eq_of_map_elements patternTerm_injective patterns
  cases eq_of_map_toList boolLiteral_injective check
  cases started
  cases List.map_injective_iff.mpr stepTerm_injective children
  rfl

end Graph

/-! The order of the trees. -/

def isOfKind (kind : NodeKind) : Term → Bool
  | .blank label => label.toList.take 2 == kind.stem.toList.take 2
  | _ => false

theorem isOfKind_term (kind : NodeKind) (node : Node) :
    isOfKind kind node.term = true ↔ node.kind = kind := by
  have start : isOfKind kind node.term = (node.kind.stem.toList.take 2 == kind.stem.toList.take 2) := by
    rw [← node.take_label]
    rfl
  rw [start, beq_iff_eq]
  constructor
  · exact NodeKind.eq_of_take
  · rintro rfl
    rfl

def treeTerms (quads : List Quad) : List Term :=
  (quads.filter fun quad => isOfKind .tree quad.subject && decide (quad.predicate = rdfType)).map Quad.subject

theorem treeTerms_append (first second : List Quad) :
    treeTerms (first ++ second) = treeTerms first ++ treeTerms second := by
  simp [treeTerms]

theorem treeTerms_eq_nil {kinds : List NodeKind} {quads : List Quad}
    (placed : ∀ quad ∈ quads, Placed kinds quad) (other : ¬NodeKind.tree ∈ kinds) :
    treeTerms quads = [] := by
  refine List.map_eq_nil_iff.mpr (List.filter_eq_nil_iff.mpr ?_)
  intro quad member passes
  obtain ⟨node, kind, subject, _⟩ := placed quad member
  rw [Bool.and_eq_true, subject, isOfKind_term] at passes
  exact other (passes.1 ▸ kind)

theorem treeTerms_statements (fingerprint : Fingerprint) (graph : Option Term)
    (values : List (Iri × Term)) :
    treeTerms ((Node.tree fingerprint).statements graph values) =
      (values.filter fun value => value.1 = rdfType).map fun _ => (Node.tree fingerprint).term := by
  have tree : isOfKind .tree (Node.tree fingerprint).term = true := (isOfKind_term _ _).mpr rfl
  simp [treeTerms, Node.statements, List.filter_map, Function.comp_def, tree]

namespace Graph
variable {graph other : Graph}

theorem treeTerms_describeTree (tree : SearchTree) :
    treeTerms (graph.describeTree tree) = [(Node.tree tree.fingerprint).term] := by
  have fields : (treeFields tree).pairs.filter (fun pair => pair.1 = rdfType) =
      [(rdfType, .iri Vocabulary.searchTree)] := by
    refine Record.filter_pairs_cons ?_ _
    simp only [Record.keys, List.map_cons, List.map_nil]
    decide
  have links (cycles : List Node) : treeTerms (cycles.map fun cycle =>
      (⟨(Node.tree tree.fingerprint).term, Vocabulary.goesThroughCycle, cycle.term,
        some cycle.term⟩ : Quad)) = [] := by
    have differs : Vocabulary.goesThroughCycle ≠ rdfType := by decide
    simp [treeTerms, List.filter_map, Function.comp_def, differs]
  rw [describeTree, treeFields_eq, treeTerms_append, treeTerms_statements, fields, links]
  rfl

theorem treeTerms_quads (graph : Graph) : treeTerms graph.quads =
    graph.forest.fingerprints.map fun fingerprint => (Node.tree fingerprint).term := by
  have trees : treeTerms graph.treeQuads =
      graph.forest.fingerprints.map fun fingerprint => (Node.tree fingerprint).term := by
    unfold treeQuads Forest.fingerprints
    induction graph.forest.trees with
    | nil => rfl
    | cons first rest ih =>
      rw [List.flatMap_cons, treeTerms_append, treeTerms_describeTree, ih]
      rfl
  rw [quads_eq_sections]
  simp only [treeTerms_append]
  rw [treeTerms_eq_nil placed_spaceQuads (by simp), treeTerms_eq_nil placed_variableQuads (by simp),
    treeTerms_eq_nil placed_describePatterns (by simp), treeTerms_eq_nil placed_stepQuads (by simp),
    treeTerms_eq_nil placed_cycleQuads (by simp), trees]
  simp

theorem fingerprints_eq (same : graph.quads = other.quads) :
    graph.forest.fingerprints = other.forest.fingerprints := by
  have terms : treeTerms graph.quads = treeTerms other.quads := congrArg treeTerms same
  rw [treeTerms_quads, treeTerms_quads] at terms
  refine List.map_injective_iff.mpr ?_ terms
  intro first second equal
  simpa using equal

/-! The forest. -/

theorem trees_eq (describable : graph.Describable) (also : other.Describable)
    (same : graph.quads = other.quads) : graph.forest.trees = other.forest.trees := by
  have records := describable.record?_eq also same
  have fingerprints := fingerprints_eq same
  refine List.ext_getElem? fun place => ?_
  cases first : graph.forest.trees[place]? with
  | none =>
    have here : graph.forest.fingerprints[place]? = none := by simp [Forest.fingerprints, first]
    rw [fingerprints] at here
    cases second : other.forest.trees[place]? with
    | none => rfl
    | some tree => simp [Forest.fingerprints, second] at here
  | some tree =>
    have here := Forest.fingerprint_at.mpr ⟨tree, first, rfl⟩
    rw [fingerprints] at here
    obtain ⟨again, second, named⟩ := Forest.fingerprint_at.mp here
    have member := List.mem_of_getElem? first
    have alsoMember := List.mem_of_getElem? second
    have record := records (.tree tree.fingerprint)
    rw [describable.record?_tree member, ← named, also.record?_tree alsoMember] at record
    rw [second, tree_eq (cycles_eq records) (describable.cycles.trees tree member)
      (also.cycles.trees again alsoMember) named.symm (Option.some.inj record)]

theorem childrenOf_eq (describable : graph.Describable) (also : other.Describable)
    (same : graph.quads = other.quads) (node : ChainNode) :
    graph.forest.childrenOf node = other.forest.childrenOf node := by
  have records := describable.record?_eq also same
  cases node with
  | tree id => simp only [Forest.childrenOf, trees_eq describable also same]
  | step id =>
    have children : graph.forest.steps.map Step.children = other.forest.steps.map Step.children := by
      refine map_eq_of_records (fun place => records (.step place)) ?_
      intro _ step again found there record
      have equal := step_eq (cycles_eq records) (describable.cycles.steps step (List.mem_of_getElem? found))
        (also.cycles.steps again (List.mem_of_getElem? there)) record
      rw [← equal]
    have there := congrArg (·[id]?) children
    simp only [List.getElem?_map] at there
    simp only [Forest.childrenOf, there]

/-- The parent of a step is the node that has it as a child. -/
theorem steps_eq (describable : graph.Describable) (also : other.Describable)
    (same : graph.quads = other.quads) : graph.forest.steps = other.forest.steps := by
  have records := describable.record?_eq also same
  refine eq_of_records (fun place => records (.step place)) ?_
  intro id step again found there record
  have equal := step_eq (cycles_eq records) (describable.cycles.steps step (List.mem_of_getElem? found))
    (also.cycles.steps again (List.mem_of_getElem? there)) record
  have below : id ∈ graph.forest.childrenOf step.parent :=
    (describable.links.mem_childrenOf_iff found).mpr rfl
  rw [childrenOf_eq describable also same, also.links.mem_childrenOf_iff there] at below
  rw [← equal, ← below]

/-- The graphs are the same apart from the contexts of their spaces and their prefixes. -/
structure SameContents (graph other : Graph) : Prop where
  spaces : graph.spaces.map SearchSpace.pattern = other.spaces.map SearchSpace.pattern
  patterns : graph.patterns = other.patterns
  trees : graph.forest.trees = other.forest.trees
  steps : graph.forest.steps = other.forest.steps
  cycles : graph.cycles = other.cycles

theorem SameContents.quads_eq (same : SameContents graph other) : graph.quads = other.quads := by
  have spaceQuads (graph : Graph) : graph.spaceQuads =
      (graph.spaces.map SearchSpace.pattern).zipIdx.flatMap fun entry =>
        describeSpace ⟨"", entry.1⟩ entry.2 := by
    rw [List.zipIdx_map, List.flatMap_map]
    rfl
  have spaces : graph.spaceQuads = other.spaceQuads := by
    rw [spaceQuads, spaceQuads, same.spaces]
  rw [quads_eq_sections, quads_eq_sections, spaces]
  obtain ⟨_, _, _, ⟨_, _⟩, _⟩ := graph
  obtain ⟨_, _, _, ⟨_, _⟩, _⟩ := other
  cases same.patterns
  cases same.trees
  cases same.steps
  cases same.cycles
  rfl

theorem SameContents.of_quads (describable : graph.Describable) (also : other.Describable)
    (same : graph.quads = other.quads) : graph.SameContents other := by
  have records := describable.record?_eq also same
  constructor
  · exact spaces_eq records
  · exact patterns_eq describable also records
  · exact trees_eq describable also same
  · exact steps_eq describable also same
  · exact cycles_eq records

end Graph

section
variable {glyphs otherGlyphs : List Text.Glyph} {plan otherPlan : Plan}
  {hierarchy otherHierarchy : Hierarchy} {roots otherRoots : Roots} {graph other : Graph}

/-- The description of a compiled graph tells everything about it but the contexts and the prefixes,
and nothing of these. -/
theorem Plan.compile_quads_eq_iff (decoded : Plan.ofGlyphs glyphs = .ok plan)
    (compiled : plan.compile hierarchy roots = .ok graph)
    (alsoDecoded : Plan.ofGlyphs otherGlyphs = .ok otherPlan)
    (alsoCompiled : otherPlan.compile otherHierarchy otherRoots = .ok other) :
    graph.quads = other.quads ↔ graph.SameContents other := by
  constructor
  · exact Graph.SameContents.of_quads (Plan.describable decoded compiled)
      (Plan.describable alsoDecoded alsoCompiled)
  · exact Graph.SameContents.quads_eq

end

/-- A plan for people of a name that are found in a group, and from friend to friend, with its records
written as arrays. -/
def friendsText (prefixes context : String) : String :=
  "[\x7b" ++ prefixes ++ "\x7d,[[\"" ++ context ++ "\",[\"?x\",\"<e:name>\",\"\\\"Ada\\\"\"],[null]," ++
    "[[\"friends\",[[\"knows\",\"Person\"]]]],[[[[\"member\",\"Person\"]],[\"e:group\"],null]]]]]"

def friendsPlan (prefixes : Prefixes) (context : String) : Plan where
  prefixes := prefixes
  entries := [
    { context := context
      pattern := ⟨.variable "x", .iri "e:name", .fixed (.literal (.simple "Ada"))⟩
      check := none
      cycles := [⟨"friends", [⟨"knows", "Person"⟩]⟩]
      paths := [⟨[⟨"member", "Person"⟩], ["e:group"], none⟩] }]

theorem friendsText_decodes :
    Plan.ofGlyphs (Text.glyphsOfText (friendsText "" "main")) = .ok (friendsPlan ∅ "main") := by
  decide +kernel

def friendsGraph (prefixes : Prefixes) (context : String) : Except UnknownType Graph :=
  (friendsPlan prefixes context).compile groupTypes ⟨.ofList ["x"], ∅⟩

theorem compile_quads_eq_iff_friends : ∃ graph other, friendsGraph ∅ "main" = .ok graph ∧
    friendsGraph (.ofList [("ex", "e:")]) "query" = .ok other ∧ graph ≠ other ∧
      graph.quads = other.quads ∧ graph.SameContents other := by
  have decodes : Plan.ofGlyphs (Text.glyphsOfText (friendsText "\"ex\":\"e:\"" "query")) =
      .ok (friendsPlan (.ofList [("ex", "e:")]) "query") := by decide +kernel
  have succeeds : (friendsGraph ∅ "main").isOk = true := by decide +kernel
  have alsoSucceeds : (friendsGraph (.ofList [("ex", "e:")]) "query").isOk = true := by decide +kernel
  obtain ⟨graph, compiled⟩ := exists_ok succeeds
  obtain ⟨other, alsoCompiled⟩ := exists_ok alsoSucceeds
  have differ : graph ≠ other := by
    have results : friendsGraph ∅ "main" ≠ friendsGraph (.ofList [("ex", "e:")]) "query" := by
      decide +kernel
    rw [compiled, alsoCompiled] at results
    exact fun same => results (congrArg _ same)
  have described : graph.quads = other.quads := by
    have results : (friendsGraph ∅ "main").map Graph.quads =
        (friendsGraph (.ofList [("ex", "e:")]) "query").map Graph.quads := by decide +kernel
    rw [compiled, alsoCompiled] at results
    exact Except.ok.inj results
  have contents := (Plan.compile_quads_eq_iff friendsText_decodes compiled decodes alsoCompiled).mp described
  exact ⟨graph, other, compiled, alsoCompiled, differ, described, contents⟩

end PlanGraph
