import PlanGraph.Proofs.Rdf.LanguageTag
import PlanGraph.Proofs.Rdf.LiteralText
import PlanGraph.Proofs.Rdf.NQuads

/-! The text of quads is read as the quads. It holds for terms that the grammar has words for: absolute
IRIs, valid labels, and literals with language tags and datatypes as they are decoded. -/

set_option autoImplicit false
namespace PlanGraph.Rdf
open Text NQuads

inductive Term.IsNamed : Term → Prop
  | iri {name : Iri} (absolute : isAbsoluteIri name.toList = true) : IsNamed (.iri name)
  | blank {label : String} (valid : IsBlankLabel isNQuadsLetter label.toList) : IsNamed (.blank label)

inductive Term.IsWritable : Term → Prop
  | node {term : Term} (named : term.IsNamed) : IsWritable term
  | literal {literal : Literal} (readable : literal.IsReadable) : IsWritable (.literal literal)

structure Quad.IsWritable (quad : Quad) : Prop where
  subject : quad.subject.IsNamed
  predicate : isAbsoluteIri quad.predicate.toList = true
  object : quad.object.IsWritable
  graph : ∀ term ∈ quad.graph, term.IsNamed

def Literal.terminals : Literal → List Terminal
  | .simple value => [.string value]
  | .tagged value language => [.string value, .language language]
  | .typed value datatype => [.string value, .datatypeMark, .iri datatype]

def Term.terminals : Term → List Terminal
  | .iri name => [.iri name]
  | .blank label => [.blank label]
  | .literal value => value.terminals

def Quad.terminals (quad : Quad) : List Terminal :=
  quad.subject.terminals ++ .iri quad.predicate ::
    (quad.object.terminals ++ quad.graph.elim [] Term.terminals)

namespace NQuads

/-! ## Lexemes -/

section
variable {terminal : Terminal} {lexeme text : List Char} {terminals : List Terminal}

/-- Only terminals of the same kind can take more of the text. -/
theorem Spells.longest (spells : Spells terminal lexeme)
    (limit : ∀ other longer, other.kind = terminal.kind → Spells other longer →
      longer <+: lexeme ++ text → longer.length ≤ lexeme.length) : Longest lexeme text := by
  intro other longer also within
  obtain ⟨rest, same⟩ := within
  exact limit other longer (also.kind_eq spells same) also ⟨rest, same⟩

theorem length_le_of_prefix {longer : List Char} {char : Char} (clear : char ∉ longer)
    (within : longer <+: lexeme ++ char :: text) : longer.length ≤ lexeme.length := by
  refine Nat.le_of_not_lt fun beyond => clear ?_
  -- A longer text would reach the character that it does not have.
  have whole : lexeme ++ [char] <+: lexeme ++ char :: text := ⟨text, by simp⟩
  have inside : lexeme ++ [char] <+: longer :=
    List.prefix_of_prefix_length_le whole within (by simpa [Nat.succ_le_iff] using beyond)
  exact inside.subset (by simp)

theorem Quoting.Writes.length_le {quoting : Quoting} {opening : Char} {chars others written longer : List Char}
    (writes : quoting.Writes chars written) (also : quoting.Writes others longer)
    (within : opening :: (longer ++ [quoting.close]) <+: opening :: (written ++ [quoting.close]) ++ text) :
    (opening :: (longer ++ [quoting.close])).length ≤ (opening :: (written ++ [quoting.close])).length := by
  obtain ⟨rest, same⟩ := within
  simp only [List.cons_append, List.append_assoc, List.nil_append, List.cons.injEq, true_and] at same
  exact Nat.le_of_eq (by rw [(also.unique writes same).2])

theorem isIriRefChar_of_isIriChar {char : Char} (allowed : isIriChar char = true) :
    isIriRefChar char = true := by
  by_cases ascii : char.toNat < 128
  · exact @forall_ascii (fun char => isIriChar char = true → isIriRefChar char = true) (by decide) char ascii
      allowed
  · -- The marks that are not allowed are ASCII, all of them.
    have marks : (iriRefMarks.all fun mark => mark.toNat < 128) = true := by decide
    have other : char ∉ iriRefMarks :=
      fun inside => ascii (of_decide_eq_true (List.all_eq_true.mp marks char inside))
    have beyond : 0x20 < char.toNat := Nat.lt_of_lt_of_le (by decide) (Nat.le_of_not_lt ascii)
    unfold isIriRefChar
    rw [decide_eq_true beyond, Bool.true_and, Bool.not_eq_true', Bool.eq_false_iff]
    exact fun inside => other (List.contains_iff_mem.mp inside)

theorem writes_of_absolute {name : List Char} (absolute : isAbsoluteIri name = true) :
    iriQuoting.Writes name name := by
  have allowed := areIriChars_of_isAbsoluteIri absolute
  -- What is left of an IRI need not be absolute, but its characters are still those of IRIs.
  clear absolute
  induction name with
  | nil => exact .nil
  | cons first rest ih =>
    obtain ⟨head, tail⟩ := areIriChars_cons.mp allowed
    exact .cons (.plain (isIriRefChar_of_isIriChar head)) (ih tail)

theorem unit_escapedChar (char : Char) : stringQuoting.Unit char (escapedChar char) := by
  unfold escapedChar
  split
  case h_8 _ _ newline _ carriageReturn quote backslash =>
    -- Of the characters without a name only the controls are escaped.
    split
    · rename_i control
      have small : char.toNat < 16 ^ 4 := by omega
      exact .numbered (.short (length_hexDigits (by decide) small) (hexNumber?_hexDigits 4 char.toNat))
    · refine .plain ?_
      have other : char ∉ ['"', '\\', '\n', '\r'] := by
        simpa using ⟨quote, backslash, newline, carriageReturn⟩
      simpa [stringQuoting, isQuotedChar] using other
  all_goals exact .named rfl rfl

theorem writes_escaped (value : List Char) : stringQuoting.Writes value (value.flatMap escapedChar) := by
  induction value with
  | nil => exact .nil
  | cons first rest ih => exact .cons (unit_escapedChar first) ih

theorem lexes_iri {name : Iri} (absolute : isAbsoluteIri name.toList = true) (rest : Lexes text terminals) :
    Lexes ((iriText name).toList ++ text) (.iri name :: terminals) := by
  have writes := writes_of_absolute absolute
  rw [toList_iriText]
  refine .terminal (.iri writes) (Spells.longest (.iri writes) fun other longer kind also within => ?_) rest
  cases also with
  | iri again => exact writes.length_le again within
  | _ => cases kind

theorem lexes_string (value : String) (rest : Lexes text terminals) :
    Lexes ((quotedText value).toList ++ text) (.string value :: terminals) := by
  have writes := writes_escaped value.toList
  rw [toList_quotedText]
  refine .terminal (.string writes) (Spells.longest (.string writes) fun other longer kind also within => ?_)
    rest
  cases also with
  | string again => exact writes.length_le again within
  | _ => cases kind

theorem lexes_blank {label : String} (valid : IsBlankLabel isNQuadsLetter label.toList)
    (rest : Lexes (' ' :: text) terminals) :
    Lexes ('_' :: ':' :: (label.toList ++ ' ' :: text)) (.blank label :: terminals) := by
  refine .terminal (.blank valid) (Spells.longest (.blank valid) fun other longer kind also within => ?_) rest
  cases also with
  | blank again =>
    refine length_le_of_prefix ?_ within
    simpa using again.not_mem (by decide) (by decide)
  | _ => cases kind

theorem lexes_language {tag : String} (valid : IsTag tag.toList) (rest : Lexes (' ' :: text) terminals) :
    Lexes ('@' :: (tag.toList ++ ' ' :: text)) (.language tag :: terminals) := by
  refine .terminal (.language valid) (Spells.longest (.language valid) fun other longer kind also within => ?_)
    rest
  cases also with
  | language again =>
    refine length_le_of_prefix ?_ within
    simpa using again.not_mem
  | _ => cases kind

theorem lexes_datatypeMark (rest : Lexes text terminals) :
    Lexes ('^' :: '^' :: text) (.datatypeMark :: terminals) := by
  refine .terminal .datatypeMark (Spells.longest .datatypeMark fun other longer kind also _ => ?_) rest
  cases also with
  | datatypeMark => exact Nat.le_refl _
  | _ => cases kind

theorem lexes_stop (rest : Lexes text terminals) : Lexes ('.' :: text) (.stop :: terminals) := by
  refine .terminal .stop (Spells.longest .stop fun other longer kind also _ => ?_) rest
  cases also with
  | stop => exact Nat.le_refl _
  | _ => cases kind

theorem lexes_lineEnd (next : ∀ first ∈ text.head?, isLineEnd first = false) (rest : Lexes text terminals) :
    Lexes ('\n' :: text) (.lineEnd :: terminals) := by
  have spells : Spells .lineEnd ['\n'] := .lineEnd (List.forall_mem_singleton.mpr rfl)
  refine .terminal spells (spells.longest fun other longer kind also within => ?_) rest
  cases also with
  | lineEnd ends =>
    cases text with
    | nil => exact within.length_le
    | cons first behind =>
      -- Line ends are taken as long as they go on, which is not beyond the next line's first character.
      refine length_le_of_prefix (fun inside => ?_) within
      have ended := ends first inside
      rw [next first rfl] at ended
      cases ended
  | _ => cases kind

theorem lexes_space (rest : Lexes text terminals) : Lexes (' ' :: text) terminals := .space rfl rest

/-! ## Terms, quads and documents -/

theorem lexes_literal {literal : Literal} (readable : literal.IsReadable) (rest : Lexes text terminals) :
    Lexes (literal.text.toList ++ ' ' :: text) (literal.terminals ++ terminals) := by
  cases readable with
  | simple value => exact lexes_string value (lexes_space rest)
  | @tagged value language letters _ tag =>
    have whole : (Literal.tagged value language).text.toList ++ ' ' :: text =
        (quotedText value).toList ++ '@' :: (language.toList ++ ' ' :: text) := by simp [Literal.text]
    rw [whole]
    exact lexes_string value (lexes_language (isTag_of_isLanguageTag tag) (lexes_space rest))
  | @typed value datatype absolute =>
    have whole : (Literal.typed value datatype).text.toList ++ ' ' :: text =
        (quotedText value).toList ++ '^' :: '^' :: ((iriText datatype).toList ++ ' ' :: text) := by
      simp [Literal.text]
    rw [whole]
    exact lexes_string value (lexes_datatypeMark (lexes_iri absolute (lexes_space rest)))

theorem lexes_node {term : Term} (named : term.IsNamed) (rest : Lexes text terminals) :
    Lexes (term.text.toList ++ ' ' :: text) (term.terminals ++ terminals) := by
  cases named with
  | iri absolute => exact lexes_iri absolute (lexes_space rest)
  | @blank label valid =>
    have whole : (Term.blank label).text.toList ++ ' ' :: text =
        '_' :: ':' :: (label.toList ++ ' ' :: text) := by simp [Term.text]
    rw [whole]
    exact lexes_blank valid (lexes_space rest)

theorem lexes_term {term : Term} (writable : term.IsWritable) (rest : Lexes text terminals) :
    Lexes (term.text.toList ++ ' ' :: text) (term.terminals ++ terminals) := by
  cases writable with
  | node named => exact lexes_node named rest
  | literal readable => exact lexes_literal readable rest

theorem lexes_quad {quad : Quad} (writable : quad.IsWritable) (rest : Lexes text terminals) :
    Lexes (quad.text.toList ++ ' ' :: text) (quad.terminals ++ terminals) := by
  obtain ⟨subject, predicate, object, graph⟩ := quad
  cases graph with
  | none =>
    have whole : (Quad.mk subject predicate object none).text.toList ++ ' ' :: text =
        subject.text.toList ++ ' ' :: ((iriText predicate).toList ++ ' ' ::
          (object.text.toList ++ ' ' :: text)) := by simp [Quad.text]
    rw [whole]
    have tail := lexes_iri writable.predicate (lexes_space (lexes_term writable.object rest))
    simpa [Quad.terminals] using lexes_node writable.subject tail
  | some graph =>
    have whole : (Quad.mk subject predicate object (some graph)).text.toList ++ ' ' :: text =
        subject.text.toList ++ ' ' :: ((iriText predicate).toList ++ ' ' ::
          (object.text.toList ++ ' ' :: (graph.text.toList ++ ' ' :: text))) := by simp [Quad.text]
    rw [whole]
    have place := lexes_node (writable.graph graph rfl) rest
    have tail := lexes_iri writable.predicate (lexes_space (lexes_term writable.object place))
    simpa [Quad.terminals] using lexes_node writable.subject tail

theorem exists_head_text {term : Term} (named : term.IsNamed) :
    ∃ first rest, term.text.toList = first :: rest ∧ isLineEnd first = false := by
  cases named with
  | iri => exact ⟨'<', _, toList_iriText _, rfl⟩
  | @blank label => exact ⟨'_', ':' :: label.toList, by simp [Term.text], rfl⟩

theorem head?_quad {quad : Quad} (named : quad.subject.IsNamed) (text : List Char) :
    ∀ first ∈ (quad.text.toList ++ text).head?, isLineEnd first = false := by
  obtain ⟨first, rest, whole, other⟩ := exists_head_text named
  obtain ⟨subject, predicate, object, graph⟩ := quad
  dsimp only at whole
  cases graph <;> simpa [Quad.text, whole] using other

theorem nQuadsText_cons (quad : Quad) (quads : List Quad) : (nQuadsText (quad :: quads)).toList =
    quad.text.toList ++ ' ' :: '.' :: '\n' :: (nQuadsText quads).toList := by
  simp [nQuadsText]

theorem head?_nQuadsText {quads : List Quad} (writable : ∀ quad ∈ quads, quad.IsWritable) :
    ∀ first ∈ (nQuadsText quads).toList.head?, isLineEnd first = false := by
  cases quads with
  | nil => simp [nQuadsText]
  | cons quad rest =>
    rw [nQuadsText_cons]
    exact head?_quad (writable quad List.mem_cons_self).subject _

end

def lines (quads : List Quad) : List Terminal :=
  quads.flatMap fun quad => quad.terminals ++ [.stop, .lineEnd]

theorem lexes_nQuadsText {quads : List Quad} (writable : ∀ quad ∈ quads, quad.IsWritable) :
    Lexes (nQuadsText quads).toList (lines quads) := by
  induction quads with
  | nil => exact .nil
  | cons quad rest ih =>
    obtain ⟨first, later⟩ := List.forall_mem_cons.mp writable
    have tail := lexes_stop (lexes_lineEnd (head?_nQuadsText later) (ih later))
    rw [nQuadsText_cons]
    simpa [lines] using lexes_quad first tail

theorem isNode_terminals {term : Term} (named : term.IsNamed) :
    ∃ terminal, term.terminals = [terminal] ∧ IsNode terminal term := by
  cases named with
  | iri absolute => exact ⟨_, rfl, .iri absolute⟩
  | blank => exact ⟨_, rfl, .blank _⟩

theorem isObject_terminals {term : Term} (writable : term.IsWritable) : IsObject term.terminals term := by
  cases writable with
  | node named =>
    obtain ⟨terminal, whole, node⟩ := isNode_terminals named
    rw [whole]
    exact .node node
  | literal readable =>
    cases readable with
    | simple value => exact .simple value
    | tagged => exact .tagged _ _
    | @typed value datatype absolute other =>
      -- A literal with the datatype of strings is read as a simple one, but no readable literal has it.
      have typed := IsObject.typed value absolute
      rw [Literal.ofTyped, if_neg other] at typed
      exact typed

theorem isStatement_terminals {quad : Quad} (writable : quad.IsWritable) :
    IsStatement quad.terminals quad := by
  obtain ⟨subject, predicate, object, graph⟩ := quad
  obtain ⟨first, whole, about⟩ := isNode_terminals writable.subject
  have belongs : IsGraphLabel (graph.elim [] Term.terminals) graph := by
    cases graph with
    | none => exact .default
    | some graph =>
      obtain ⟨terminal, single, node⟩ := isNode_terminals (writable.graph graph rfl)
      rw [Option.elim_some, single]
      exact .named node
  have statement : Quad.terminals ⟨subject, predicate, object, graph⟩ =
      first :: .iri predicate :: (object.terminals ++ graph.elim [] Term.terminals) := by
    rw [Quad.terminals, whole]
    rfl
  rw [statement]
  exact .mk about writable.predicate (isObject_terminals writable.object) belongs

theorem areLines_lines {quads : List Quad} (writable : ∀ quad ∈ quads, quad.IsWritable) :
    AreLines (.lineEnd :: lines quads) quads := by
  induction quads with
  | nil => exact .lineEnd
  | cons quad rest ih =>
    obtain ⟨first, later⟩ := List.forall_mem_cons.mp writable
    simpa [lines] using AreLines.cons (isStatement_terminals first) (ih later)

theorem isDocument_lines {quads : List Quad} (writable : ∀ quad ∈ quads, quad.IsWritable) :
    IsDocument (lines quads) quads := by
  cases quads with
  | nil => exact .lines .nothing
  | cons quad rest =>
    obtain ⟨first, later⟩ := List.forall_mem_cons.mp writable
    simpa [lines] using IsDocument.cons (isStatement_terminals first) (areLines_lines later)

/-- The text of writable quads is read as these quads and no others. -/
theorem reads_nQuadsText {quads : List Quad} (writable : ∀ quad ∈ quads, quad.IsWritable)
    (others : List Quad) : Reads (nQuadsText quads) others ↔ others = quads := by
  have reads : Reads (nQuadsText quads) quads :=
    ⟨lines quads, lexes_nQuadsText writable, isDocument_lines writable⟩
  constructor
  · exact fun also => also.unique reads
  · rintro rfl
    exact reads

end NQuads
end PlanGraph.Rdf
