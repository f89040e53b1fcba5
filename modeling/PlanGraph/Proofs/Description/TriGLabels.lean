import PlanGraph.Proofs.Description.NQuadsReading
import PlanGraph.Proofs.Rdf.TriGText
import PlanGraph.Turtle.Token

/-! The labels of a description in TriG. A label that the grammar has is read as one token. Names of variables
may have a colon in front, which is no letter of labels here, so that a document with such a name is read as
something else. -/

set_option autoImplicit false
namespace PlanGraph
open Text
open Rdf (IsBlankLabel isLabelChar)

/-! ## Reading labels -/

namespace Turtle

theorem isNameChar_eq (char : Char) : isNameChar char = isLabelChar isNameStart char := by
  simp only [isNameChar, isLabelChar]
  grind

theorem labelTail?_cons {char : Char} (plain : char ≠ '.') (rest : List Glyph) :
    labelTail? (some char :: rest) =
      if isNameChar char then (labelTail? rest).map fun (tail, after) => (char :: tail, after)
      else some ([], some char :: rest) := by
  rw [labelTail?.eq_def]
  split
  · next same => exact absurd (Option.some.inj (List.cons.inj same).1) plain
  · next same => exact absurd (Option.some.inj (List.cons.inj same).1) plain
  · next same =>
    cases same
    rfl
  · next other => exact absurd rfl (other char rest)

theorem labelTail?_append {tail : List Char} {next : Char} (continues : ∀ char ∈ tail, isNameChar char = true)
    (ends : isNameChar next = false) (plain : next ≠ '.') (rest : List Glyph) :
    labelTail? (tail.map some ++ some next :: rest) = some (tail, some next :: rest) := by
  induction tail with
  | nil => rw [List.map_nil, List.nil_append, labelTail?_cons plain, ends, if_neg Bool.false_ne_true]
  | cons first further ih =>
    obtain ⟨allowed, later⟩ := List.forall_mem_cons.mp continues
    -- Dots are read ahead for what follows them. There is none here.
    have dotless : first ≠ '.' := by
      rintro rfl
      cases allowed
    rw [List.map_cons, List.cons_append, labelTail?_cons dotless, allowed, if_pos rfl, ih later]
    rfl

theorem scan_underscore (rest : List Glyph) : scan '_' rest = scanBlank rest := by
  simp [scan, isNumberAhead, isMark]

theorem scan_label (first : Char) (tail : List Char) (next : Char) (rest : List Glyph)
    (starts : (isNameStart first || first.isDigit) = true)
    (continues : ∀ char ∈ tail, isLabelChar isNameStart char = true)
    (ends : isLabelChar isNameStart next = false) (plain : next ≠ '.') :
    scan '_' ((':' :: first :: tail).map some ++ some next :: rest) =
      (.blank (first :: tail), some next :: rest) := by
  simp only [← isNameChar_eq] at continues ends
  rw [scan_underscore]
  simp [scanBlank, starts, labelTail?_append continues ends plain]

end Turtle

/-- The label is one of the grammar, and in front of a space it is read as one token. -/
structure ReadsWhole (label : String) : Prop where
  valid : IsBlankLabel isNameStart label.toList
  scanned : ∀ rest, Turtle.scan '_' (glyphsOfText (":" ++ label ++ " ") ++ rest) =
    (.blank label.toList, some ' ' :: rest)

/-- The label of the variable is none of the grammar. Only its stem is read, and the name is left over. -/
structure LosesName (name : String) : Prop where
  invalid : ¬IsBlankLabel isNameStart (Node.variable name).label.toList
  scanned : ∀ rest, Turtle.scan '_' (glyphsOfText (":" ++ (Node.variable name).label ++ " ") ++ rest) =
    (.blank NodeKind.variable.stem.toList, glyphsOfText (name ++ " ") ++ rest)

theorem Node.exists_stem (node : Node) : ∃ first rest, node.kind.stem.toList = first :: rest ∧
    isNameStart first = true ∧ ∀ char ∈ rest, isLabelChar isNameStart char = true := by
  cases stem : node.kind.stem.toList with
  | nil => exact absurd stem node.kind.stem_ne_nil
  | cons first rest =>
    obtain ⟨starts, continues⟩ := List.forall_mem_cons.mp (stem ▸ node.kind.isNameStart_stem)
    exact ⟨first, rest, rfl, starts, fun char inside => by simp [isLabelChar, continues char inside]⟩

theorem Node.readsWhole {node : Node}
    (allowed : ∀ char ∈ node.suffix.toList, isLabelChar isNameStart char = true) : ReadsWhole node.label := by
  obtain ⟨first, rest, stem, starts, continues⟩ := node.exists_stem
  have whole : node.label.toList = first :: (rest ++ node.suffix.toList) := by
    rw [label_eq, String.toList_append, stem, List.cons_append]
  have tail := List.forall_mem_append.mpr ⟨continues, allowed⟩
  refine ⟨?_, fun behind => ?_⟩
  · rw [whole]
    exact Rdf.isBlankLabel_cons starts tail
  · have scanned := Turtle.scan_label first (rest ++ node.suffix.toList) ' ' behind
      (by rw [starts, Bool.true_or]) tail (by decide) (by decide)
    simpa [glyphsOfText, whole] using scanned

theorem losesName {name : String} (colon : name.toList.head? = some ':') : LosesName name := by
  obtain ⟨further, same⟩ := List.head?_eq_some_iff.mp colon
  have whole : (Node.variable name).label.toList = NodeKind.variable.stem.toList ++ ':' :: further := by
    rw [Node.label_eq, String.toList_append, Node.suffix, same, Node.kind]
  refine ⟨fun valid => ?_, fun behind => ?_⟩
  · have absent : ':' ∉ (Node.variable name).label.toList := valid.not_mem (by decide) (by decide)
    exact absent (by simp [whole])
  · have scanned := Turtle.scan_label 'v' ['a', 'r', '_'] ':' (further.map some ++ some ' ' :: behind)
      (by decide) (List.all_eq_true.mp (by decide)) (by decide) (by decide)
    simpa [glyphsOfText, whole, same, NodeKind.stem] using scanned

/-! ## The labels of descriptions -/

theorem Graph.Tells.exists_node {graph : Graph} {term : Rdf.Term} (tells : graph.Tells term) {label : String}
    (uses : term.label? = some label) : ∃ node, graph.Knows node ∧ node.label = label := by
  cases tells with
  | node known => exact ⟨_, known, Option.some.inj uses⟩
  | _ => cases uses

theorem Graph.Says.exists_node {graph : Graph} {quad : Rdf.Quad} (tells : graph.Says quad) {label : String}
    (uses : label ∈ quad.labels) : ∃ node, graph.Knows node ∧ node.label = label := by
  obtain ⟨term, member, same⟩ := List.mem_filterMap.mp uses
  simp only [List.mem_cons, Option.mem_toList] at member
  rcases member with rfl | rfl | place
  · obtain ⟨node, known, about⟩ := tells.subject
    exact Graph.Tells.exists_node (.node known) (about ▸ same)
  · exact tells.object.exists_node same
  · rcases tells.place term place with rfl | ⟨index, rfl⟩
    · cases same
    · exact ⟨.cycle index, trivial, Option.some.inj same⟩

def Plan.HasColonVariable (plan : Plan) (name : String) : Prop :=
  name.toList.head? = some ':' ∧ ∃ entry ∈ plan.entries, entry.pattern.Uses name

theorem Plan.mem_variableNames_of_compile {plan : Plan} {hierarchy : Hierarchy} {roots : Roots} {graph : Graph}
    (compiled : plan.compile hierarchy roots = .ok graph) {name : String} :
    name ∈ graph.variableNames ↔ ∃ entry ∈ plan.entries, entry.pattern.Uses name := by
  have same := @Plan.mem_patterns_of_compile plan hierarchy roots graph compiled
  simp only [List.mem_map] at same
  rw [Graph.mem_variableNames]
  constructor
  · rintro ⟨node, member, uses⟩
    obtain ⟨entry, inside, planned⟩ := same.mp ⟨node, member, rfl⟩
    exact ⟨entry, inside, planned ▸ uses⟩
  · rintro ⟨entry, inside, uses⟩
    obtain ⟨node, member, planned⟩ := same.mpr ⟨entry, inside, rfl⟩
    exact ⟨node, member, planned ▸ uses⟩

theorem Graph.exists_quad_of_variable {graph : Graph} {name : String} (known : name ∈ graph.variableNames) :
    ∃ quad ∈ graph.quads, (Node.variable name).label ∈ quad.labels := by
  have described : describeVariable name ⊆ graph.quads := fun quad inside => by
    simp only [quads, List.mem_append]
    exact Or.inl (Or.inl (Or.inl (Or.inl (Or.inr (List.mem_flatMap.mpr ⟨name, known, inside⟩)))))
  exact ⟨_, described List.mem_cons_self, List.mem_cons_self⟩

theorem Graph.text_of_export {graph : Graph} {text : String} (exported : graph.export .triG = .ok text) :
    text = Rdf.TriG.text graph.bindings graph.quads := by
  obtain ⟨_, _, written⟩ := bind_eq_ok.mp exported
  cases written
  rfl

/-- Every label in the description of a decoded and compiled plan is in its TriG document. It is one of the
grammar and is read as one token there, but for the labels of variables with a colon in front. These are in
the description as well, none of them is a label of the grammar, and the token that is read instead ends
before the name. -/
theorem Plan.compile_labels {glyphs : List Glyph} {plan : Plan} {hierarchy : Hierarchy} {roots : Roots}
    {graph : Graph} {text : String} (decoded : Plan.ofGlyphs glyphs = .ok plan)
    (compiled : plan.compile hierarchy roots = .ok graph) (exported : graph.export .triG = .ok text) :
    (∀ quad ∈ graph.quads, ∀ label ∈ quad.labels, Rdf.TriG.blankText label <:+: text.toList ∧
      (ReadsWhole label ∨ ∃ name, plan.HasColonVariable name ∧ label = (Node.variable name).label)) ∧
    ∀ name, plan.HasColonVariable name →
      LosesName name ∧ ∃ quad ∈ graph.quads, (Node.variable name).label ∈ quad.labels := by
  have spelled := Plan.isRead decoded compiled
  constructor
  · intro quad member label uses
    refine ⟨Graph.text_of_export exported ▸ Rdf.TriG.labels_occur _ _ quad member label uses, ?_⟩
    have tells := Graph.says_quads (Plan.describable decoded compiled).fits quad member
    obtain ⟨node, known, rfl⟩ := tells.exists_node uses
    by_cases plain : ∀ name, node = .variable name → name.toList.head? ≠ some ':'
    · exact Or.inl (Node.readsWhole ((spelled.isLabelChar_suffix_iff known).mpr plain))
    · push Not at plain
      obtain ⟨name, rfl, colon⟩ := plain
      exact Or.inr ⟨name, ⟨colon, (mem_variableNames_of_compile compiled).mp known⟩, rfl⟩
  · rintro name ⟨colon, planned⟩
    exact ⟨losesName colon, Graph.exists_quad_of_variable ((mem_variableNames_of_compile compiled).mpr planned)⟩

theorem quotationPlan_hasColonVariable : quotationPlan.HasColonVariable ":x" :=
  ⟨by decide, _, List.mem_singleton_self _, Or.inl rfl⟩

theorem quotation_exports : ∃ graph text,
    quotationPlan.compile quotationTypes ⟨.ofList [":x"], ∅⟩ = .ok graph ∧ graph.export .triG = .ok text ∧
      (∃ quad ∈ graph.quads, "tp_0" ∈ quad.labels) ∧ ∃ quad ∈ graph.quads, "var_:x" ∈ quad.labels := by
  have succeeds : (quotationPlan.compile quotationTypes ⟨.ofList [":x"], ∅⟩).map (fun graph =>
      (decide (graph.checkPrefixes = .ok ()), graph.quads.any fun quad => quad.labels.contains "tp_0",
        graph.quads.any fun quad => quad.labels.contains "var_:x")) = .ok (true, true, true) := by decide +kernel
  obtain ⟨graph, compiled, shown⟩ := map_eq_ok.mp succeeds
  obtain ⟨checked, listed⟩ := Prod.mk.inj shown
  obtain ⟨pattern, named⟩ := Prod.mk.inj listed
  have exported : graph.export .triG = .ok (Rdf.TriG.text graph.bindings graph.quads) :=
    bind_eq_ok.mpr ⟨(), of_decide_eq_true checked, rfl⟩
  refine ⟨graph, _, compiled, exported, ?_, ?_⟩
  · simpa using pattern
  · simpa using named

/-- In one document the label of a pattern is read whole, and that of a variable is not. -/
theorem compile_labels_quotation : ∃ graph text,
    Plan.ofGlyphs (glyphsOfText quotationText) = .ok quotationPlan ∧
      quotationPlan.compile quotationTypes ⟨.ofList [":x"], ∅⟩ = .ok graph ∧ graph.export .triG = .ok text ∧
      (∃ quad ∈ graph.quads, "tp_0" ∈ quad.labels) ∧
      (∀ quad ∈ graph.quads, ∀ label ∈ quad.labels, Rdf.TriG.blankText label <:+: text.toList ∧
        (ReadsWhole label ∨
          ∃ name, quotationPlan.HasColonVariable name ∧ label = (Node.variable name).label)) ∧
      LosesName ":x" := by
  obtain ⟨graph, text, compiled, exported, pattern, _⟩ := quotation_exports
  obtain ⟨whole, lost⟩ := Plan.compile_labels quotationText_decodes compiled exported
  exact ⟨graph, text, quotationText_decodes, compiled, exported, pattern, whole,
    (lost ":x" quotationPlan_hasColonVariable).1⟩

/-- The graph of the quotation is written in TriG with a label that the grammar does not have. -/
theorem export_triG_loses_quotation : ∃ graph text quad,
    Plan.ofGlyphs (glyphsOfText quotationText) = .ok quotationPlan ∧
      quotationPlan.compile quotationTypes ⟨.ofList [":x"], ∅⟩ = .ok graph ∧ graph.export .triG = .ok text ∧
      quad ∈ graph.quads ∧ "var_:x" ∈ quad.labels ∧ "_:var_:x ".toList <:+: text.toList ∧
      ¬IsBlankLabel isNameStart "var_:x".toList ∧ LosesName ":x" := by
  obtain ⟨graph, text, compiled, exported, _, quad, member, uses⟩ := quotation_exports
  have written := Rdf.TriG.labels_occur graph.bindings graph.quads quad member _ uses
  rw [← Graph.text_of_export exported] at written
  exact ⟨graph, text, quad, quotationText_decodes, compiled, exported, member, uses, written, by decide,
    losesName (by decide)⟩

end PlanGraph
