import PlanGraph.Proofs.Description.Terms
import PlanGraph.Proofs.Graph.Trees
import PlanGraph.Proofs.Rdf.BlankLabel
import PlanGraph.Proofs.Rdf.LiteralText

/-! What decoding demands of the variables and literals of a plan, and what the labels of its graph come to
hold by that. -/

set_option autoImplicit false
namespace PlanGraph
open Text
open Rdf (isLabelChar isNQuadsLetter IsBlankLabel)

def PatternTerm.IsRead : PatternTerm → Prop
  | .variable name => isVariableName name.toList = true
  | .fixed (.literal value) => value.IsReadable
  | .fixed _ => True

theorem PatternTerm.isRead_of_ofText {prefixes : Prefixes} {position : Position} {raw : String}
    {term : PatternTerm} (read : PatternTerm.ofText prefixes position raw = .ok term) : term.IsRead := by
  unfold ofText at read
  dsimp only at read
  split at read
  · split at read
    · next valid =>
      cases read
      simpa [IsRead] using valid
    · cases read
  · split at read
    · cases read
      trivial
    · split at read
      · split at read
        · next literal found =>
          cases read
          exact Rdf.isReadable_of_ofChars? found
        · cases read
      · split at read
        · cases read
        · cases read
          trivial

theorem TriplePattern.isRead_of_ofTexts {prefixes : Prefixes} {subject predicate object : String}
    {pattern : TriplePattern}
    (read : TriplePattern.ofTexts prefixes subject predicate object = .ok pattern) :
    pattern.subject.IsRead ∧ pattern.object.IsRead := by
  obtain ⟨first, _, last⟩ := terms_of_ofTexts read
  exact ⟨PatternTerm.isRead_of_ofText (PatternTerm.ofTextAt_eq_ok.mp first).1,
    PatternTerm.isRead_of_ofText (PatternTerm.ofTextAt_eq_ok.mp last).1⟩

/-- The names and literals of the graph have been read, and its trees have fingerprints of seeds. -/
structure Graph.IsRead (graph : Graph) : Prop where
  names : ∀ name ∈ graph.variableNames, isVariableName name.toList = true
  literals : ∀ node ∈ graph.patterns, ∀ literal, node.literal? = some literal → literal.IsReadable
  trees : ∀ digits ∈ graph.forest.fingerprints, ∃ seeds, digits = fingerprint seeds

theorem Graph.isRead {graph : Graph}
    (patterns : ∀ node ∈ graph.patterns, node.pattern.subject.IsRead ∧ node.pattern.object.IsRead)
    (trees : ∀ digits ∈ graph.forest.fingerprints, ∃ seeds, digits = fingerprint seeds) : graph.IsRead where
  names := fun name known => by
    obtain ⟨node, member, uses⟩ := mem_variableNames.mp known
    obtain ⟨subject, object⟩ := patterns node member
    rcases uses with same | same
    · rwa [same] at subject
    · rwa [same] at object
  literals := fun node member literal tells => by
    have object := (patterns node member).2
    unfold PatternNode.literal? at tells
    split at tells
    · next same =>
      cases tells
      rwa [same] at object
    · cases tells
  trees := trees

theorem Plan.mem_patterns_of_compile {plan : Plan} {hierarchy : Hierarchy} {roots : Roots} {graph : Graph}
    (compiled : plan.compile hierarchy roots = .ok graph) {pattern : TriplePattern} :
    pattern ∈ graph.patterns.map PatternNode.pattern ↔ pattern ∈ plan.entries.map PlanEntry.pattern := by
  obtain ⟨initial, built, _, rfl⟩ := Graph.compile_eq_ok_iff.mp compiled
  have represents := (Plan.Initial.of_ok built).2
  change pattern ∈ initial.patterns.map PatternNode.pattern ↔ _
  constructor
  · intro member
    obtain ⟨id, found⟩ := List.getElem?_of_mem member
    rw [List.getElem?_map] at found
    exact (represents.pattern?_eq_some.mp found).1
  · intro member
    obtain ⟨node, found, same⟩ := Option.map_eq_some_iff.mp (represents.pattern?_eq_some.mpr ⟨member, rfl⟩)
    exact same ▸ List.mem_map_of_mem (List.mem_of_getElem? found)

theorem Plan.exists_seeds_of_compile {plan : Plan} {hierarchy : Hierarchy} {roots : Roots} {graph : Graph}
    (compiled : plan.compile hierarchy roots = .ok graph) :
    ∀ digits ∈ graph.forest.fingerprints, ∃ seeds, digits = fingerprint seeds := by
  obtain ⟨initial, built, _, rfl⟩ := Graph.compile_eq_ok_iff.mp compiled
  intro digits member
  have same : initial.forest.fingerprints = (initial.compiled hierarchy roots).forest.fingerprints :=
    (Graph.sameLinks_compiled initial).fingerprints
  replace member := same ▸ member
  rw [(Plan.Initial.of_ok built).2.fingerprints, List.mem_eraseDups] at member
  obtain ⟨path, _, rfl⟩ := List.mem_map.mp member
  exact ⟨path.seeds, rfl⟩

theorem Plan.isRead {glyphs : List Glyph} {plan : Plan} {hierarchy : Hierarchy} {roots : Roots} {graph : Graph}
    (decoded : Plan.ofGlyphs glyphs = .ok plan) (compiled : plan.compile hierarchy roots = .ok graph) :
    graph.IsRead := by
  refine Graph.isRead (fun node member => ?_) (exists_seeds_of_compile compiled)
  -- Compilation makes no patterns, so what decoding demands of those of the plan is enough.
  have planned := (mem_patterns_of_compile compiled).mp (List.mem_map_of_mem member)
  obtain ⟨entry, inside, same⟩ := List.mem_map.mp planned
  obtain ⟨prefixes, subject, predicate, object, read⟩ := exists_texts_of_decoded decoded inside
  exact same ▸ TriplePattern.isRead_of_ofTexts read

/-! ## Labels -/

theorem NodeKind.isNameStart_stem (kind : NodeKind) : ∀ char ∈ kind.stem.toList, isNameStart char = true :=
  List.all_eq_true.mp (by cases kind <;> decide)

theorem NodeKind.stem_ne_nil (kind : NodeKind) : kind.stem.toList ≠ [] := by
  cases kind <;> decide

theorem isLabelChar_toString {isLetter : Char → Bool} (number : Nat) :
    ∀ char ∈ (toString number).toList, isLabelChar isLetter char = true := by
  intro char inside
  rw [Nat.toString_eq_repr, Nat.toList_repr] at inside
  simp [isLabelChar, Nat.isDigit_of_mem_toDigits (by decide) (by decide) inside]

theorem isLabelChar_fingerprint (seeds : List Iri) :
    ∀ char ∈ (fingerprint seeds).toList, isLabelChar isNameStart char = true := by
  have digits : ∀ value < 16, isLabelChar isNameStart (hexDigit value) = true := by decide
  intro char inside
  rw [fingerprint, String.toList_ofList] at inside
  obtain ⟨byte, _, inside⟩ := List.mem_flatMap.mp inside
  rcases List.mem_pair.mp inside with rfl | rfl
  · exact digits _ (Nat.div_lt_of_lt_mul byte.toNat_lt)
  · exact digits _ (Nat.mod_lt _ (by decide))

theorem isLabelChar_of_isVariableChar {char : Char} (allowed : isVariableChar char = true) :
    isLabelChar isNameStart char = true := by
  simp only [isVariableChar, Bool.or_eq_true] at allowed
  rcases allowed with (digit | start) | combining
  · simp [isLabelChar, digit]
  · simp [isLabelChar, start]
  · simp [isLabelChar, combining]

theorem isLabelChar_of_isVariableName {first : Char} {rest : List Char}
    (valid : isVariableName (first :: rest) = true) :
    (isLabelChar isNameStart first = true ∨ first = ':') ∧
      ∀ char ∈ rest, isLabelChar isNameStart char = true := by
  simp only [isVariableName, Bool.and_eq_true, Bool.or_eq_true, beq_iff_eq, List.all_eq_true] at valid
  obtain ⟨starts, continues⟩ := valid
  refine ⟨?_, fun char inside => isLabelChar_of_isVariableChar (continues char inside)⟩
  rcases starts with (digit | colon) | start
  · exact Or.inl (by simp [isLabelChar, digit])
  · exact Or.inr colon
  · exact Or.inl (by simp [isLabelChar, start])

/-- Only a colon in front keeps the name of a variable from being a part of a label. -/
theorem isLabelChar_iff_of_isVariableName {name : List Char} (valid : isVariableName name = true) :
    (∀ char ∈ name, isLabelChar isNameStart char = true) ↔ name.head? ≠ some ':' := by
  cases name with
  | nil => cases valid
  | cons first rest =>
    obtain ⟨starts, continues⟩ := isLabelChar_of_isVariableName valid
    rw [List.forall_mem_cons, List.head?_cons, ne_eq, Option.some.injEq]
    constructor
    · rintro ⟨allowed, _⟩ rfl
      exact absurd allowed (by decide)
    · exact fun plain => ⟨starts.resolve_right plain, continues⟩

theorem isLabelChar_nQuads_of_isVariableName {name : List Char} (valid : isVariableName name = true) :
    ∀ char ∈ name, isLabelChar isNQuadsLetter char = true := by
  cases name with
  | nil => cases valid
  | cons first rest =>
    obtain ⟨starts, continues⟩ := isLabelChar_of_isVariableName valid
    exact List.forall_mem_cons.mpr ⟨Rdf.isLabelChar_nQuads.mpr starts, fun char inside =>
      Rdf.isLabelChar_nQuads.mpr (Or.inl (continues char inside))⟩

namespace Graph.IsRead
variable {graph : Graph} {node : Node}

/-- The labels of all nodes but variables are made of letters, digits and underscores. -/
theorem isLabelChar_suffix (spelled : graph.IsRead) (known : graph.Knows node)
    (other : ∀ name, node ≠ .variable name) :
    ∀ char ∈ node.suffix.toList, isLabelChar isNameStart char = true := by
  cases node with
  | «variable» name => exact absurd rfl (other name)
  | tree digits =>
    obtain ⟨seeds, rfl⟩ := spelled.trees digits known
    exact isLabelChar_fingerprint seeds
  | cycleStep index position =>
    rw [Node.cycleStep_suffix]
    exact List.forall_mem_append.mpr ⟨isLabelChar_toString index,
      List.forall_mem_cons.mpr ⟨by decide, isLabelChar_toString position⟩⟩
  | _ => exact isLabelChar_toString _

theorem isLabelChar_nQuads_suffix (spelled : graph.IsRead) (known : graph.Knows node) :
    ∀ char ∈ node.suffix.toList, isLabelChar isNQuadsLetter char = true := by
  by_cases other : ∀ name, node ≠ .variable name
  · intro char inside
    exact Rdf.isLabelChar_nQuads.mpr (Or.inl (spelled.isLabelChar_suffix known other char inside))
  · obtain ⟨name, rfl⟩ := not_forall_not.mp other
    exact isLabelChar_nQuads_of_isVariableName (spelled.names name known)

theorem dot_not_mem_suffix (spelled : graph.IsRead) (known : graph.Knows node) : '.' ∉ node.suffix.toList :=
  fun inside => absurd (spelled.isLabelChar_nQuads_suffix known '.' inside) (by decide)

theorem isBlankLabel_nQuads (spelled : graph.IsRead) (known : graph.Knows node) :
    IsBlankLabel isNQuadsLetter node.label.toList := by
  rw [Node.label_eq, String.toList_append]
  refine (Rdf.isBlankLabel_append node.kind.stem_ne_nil (fun char inside => ?_)
    (spelled.dot_not_mem_suffix known)).mpr (spelled.isLabelChar_nQuads_suffix known)
  rw [isNQuadsLetter, node.kind.isNameStart_stem char inside, Bool.true_or]

/-- Without colons among the letters, the exceptions are variables with a colon in front of the name. -/
theorem isLabelChar_suffix_iff (spelled : graph.IsRead) (known : graph.Knows node) :
    (∀ char ∈ node.suffix.toList, isLabelChar isNameStart char = true) ↔
      ∀ name, node = .variable name → name.toList.head? ≠ some ':' := by
  by_cases other : ∀ name, node ≠ .variable name
  · exact ⟨fun _ name same => absurd same (other name), fun _ => spelled.isLabelChar_suffix known other⟩
  · obtain ⟨name, rfl⟩ := not_forall_not.mp other
    rw [Node.suffix, isLabelChar_iff_of_isVariableName (spelled.names name known)]
    exact ⟨fun plain other same => Node.variable.inj same ▸ plain, fun plain => plain name rfl⟩

end Graph.IsRead
end PlanGraph
