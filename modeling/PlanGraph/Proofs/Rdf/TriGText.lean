import Mathlib.Data.List.Infix
import PlanGraph.Rdf.TriG

/-! The labels in a TriG document. Consecutive quads share terms, so a label may have been written for an
earlier quad; it stands in the document all the same, with a space behind it. -/

set_option autoImplicit false
namespace PlanGraph.Rdf

def Term.label? : Term → Option String
  | .blank label => some label
  | _ => none

def Quad.labels (quad : Quad) : List String :=
  (quad.subject :: quad.object :: quad.graph.toList).filterMap Term.label?

namespace TriG
variable {term : Term} {previous quad : Quad} {chars tail : List Char}

def blankText (label : String) : List Char := '_' :: ':' :: (label.toList ++ [' '])

/-- The label of the term, if it has one, is in the text or at its end. -/
def Holds (chars : List Char) (term : Term) : Prop :=
  ∀ label ∈ term.label?, blankText label <:+: chars ++ [' ']

theorem Holds.append (holds : Holds chars term) (tail : List Char) : Holds (chars ++ ' ' :: tail) term := by
  intro label uses
  have longer : chars ++ [' '] <:+: chars ++ ' ' :: tail ++ [' '] := ⟨[], tail ++ [' '], by simp⟩
  exact (holds label uses).trans longer

theorem holds_termText (bindings : Bindings) (before : List Char) (term : Term) :
    Holds (before ++ (termText bindings term).toList) term := by
  intro label uses
  cases term with
  | blank other =>
    cases uses
    exact ⟨before, [], by simp [termText, blankText]⟩
  | _ => cases uses

structure HoldsQuad (chars : List Char) (quad : Quad) : Prop where
  subject : Holds chars quad.subject
  object : Holds chars quad.object
  graph : ∀ term ∈ quad.graph, Holds chars term

theorem HoldsQuad.append (holds : HoldsQuad chars quad) (tail : List Char) :
    HoldsQuad (chars ++ ' ' :: tail) quad where
  subject := holds.subject.append tail
  object := holds.object.append tail
  graph := fun term place => (holds.graph term place).append tail

theorem HoldsQuad.occurs (holds : HoldsQuad chars quad) {label : String} (uses : label ∈ quad.labels) :
    blankText label <:+: chars ++ [' '] := by
  obtain ⟨term, member, same⟩ := List.mem_filterMap.mp uses
  simp only [List.mem_cons, Option.mem_toList] at member
  rcases member with rfl | rfl | place
  · exact holds.subject label same
  · exact holds.object label same
  · exact holds.graph term place label same

theorem holds_object (bindings : Bindings) (before : List Char) (quad : Quad) :
    Holds (before ++ (predicateObject bindings quad).toList) quad.object := by
  have holds := holds_termText bindings (before ++ (predicateText bindings quad.predicate).toList ++ [' '])
    quad.object
  simpa [predicateObject] using holds

theorem holds_subject (bindings : Bindings) (before : List Char) (quad : Quad) :
    Holds (before ++ (statement bindings quad).toList) quad.subject := by
  have holds := (holds_termText bindings before quad.subject).append (predicateObject bindings quad).toList
  simpa [statement] using holds

theorem holds_object_of_statement (bindings : Bindings) (before : List Char) (quad : Quad) :
    Holds (before ++ (statement bindings quad).toList) quad.object := by
  have holds := holds_object bindings (before ++ (termText bindings quad.subject).toList ++ [' '])
    quad
  simpa [statement] using holds

theorem holds_graph (bindings : Bindings) (before : List Char) (quad : Quad) : ∀ term ∈ quad.graph,
    Holds (before ++ (opening bindings quad.graph ++ statement bindings quad).toList) term := by
  intro term place
  rw [place]
  have holds := (holds_termText bindings before term).append
    ('\x7b' :: '\n' :: '\t' :: (statement bindings quad).toList)
  simpa [opening] using holds

theorem holdsQuad_opened (bindings : Bindings) (before : List Char) (quad : Quad) :
    HoldsQuad (before ++ (opening bindings quad.graph ++ statement bindings quad).toList) quad where
  subject := by
    have holds := holds_subject bindings (before ++ (opening bindings quad.graph).toList) quad
    simpa using holds
  object := by
    have holds := holds_object_of_statement bindings
      (before ++ (opening bindings quad.graph).toList) quad
    simpa using holds
  graph := holds_graph bindings before quad

theorem exists_closing (graph : Option Term) : ∃ tail, (closing graph).toList = ' ' :: tail := by
  cases graph with
  | none => exact ⟨['.', '\n'], rfl⟩
  | some term => exact ⟨['.', '\n', '\x7d', '\n'], by simp [closing]⟩

theorem exists_continuation (bindings : Bindings) (previous quad : Quad) :
    ∃ tail, (continuation bindings previous quad).toList = ' ' :: tail := by
  obtain ⟨tail, closes⟩ := exists_closing previous.graph
  unfold continuation
  split
  · exact ⟨_, by rw [String.toList_append, String.toList_append, closes]; rfl⟩
  · split
    · exact ⟨_, by rw [String.toList_append, String.toList_append]; rfl⟩
    · split
      · exact ⟨_, by rw [String.toList_append, String.toList_append]; rfl⟩
      · exact ⟨_, by rw [String.toList_append]; rfl⟩

theorem exists_continuations (bindings : Bindings) (previous : Quad) (rest : List Quad) :
    ∃ tail, (continuations bindings previous rest).toList = ' ' :: tail := by
  cases rest with
  | nil => exact exists_closing previous.graph
  | cons quad rest =>
    obtain ⟨tail, continues⟩ := exists_continuation bindings previous quad
    exact ⟨_, by rw [continuations, String.toList_append, continues]; rfl⟩

/-- What a quad leaves out has been written for the one before it. -/
theorem HoldsQuad.continuation (holds : HoldsQuad chars previous) (bindings : Bindings) (quad : Quad) :
    HoldsQuad (chars ++ (continuation bindings previous quad).toList) quad := by
  unfold TriG.continuation
  -- The quad is in another graph, or has another subject, another predicate, or only another object.
  split
  · have opened := holdsQuad_opened bindings (chars ++ (closing previous.graph).toList) quad
    simpa [List.append_assoc] using opened
  · next sameGraph =>
    have graphs : quad.graph = previous.graph := Decidable.of_not_not sameGraph
    have kept (written : String) : ∀ term ∈ quad.graph, Holds (chars ++ ' ' :: written.toList) term :=
      fun term place => (holds.graph term (graphs ▸ place)).append written.toList
    split
    · constructor
      · have subject := holds_subject bindings (chars ++ (" .\n" ++ indentation quad.graph).toList) quad
        simpa [List.append_assoc] using subject
      · have object := holds_object_of_statement bindings (chars ++ (" .\n" ++ indentation quad.graph).toList) quad
        simpa [List.append_assoc] using object
      · have graph := kept (".\n" ++ indentation quad.graph ++ statement bindings quad)
        simpa [List.append_assoc] using graph
    · next sameSubject =>
      have subjects : quad.subject = previous.subject := Decidable.of_not_not sameSubject
      split
      · constructor
        · have subject := holds.subject.append
            (";\n\t" ++ indentation quad.graph ++ predicateObject bindings quad).toList
          simpa [List.append_assoc, subjects] using subject
        · have object := holds_object bindings (chars ++ (" ;\n\t" ++ indentation quad.graph).toList) quad
          simpa [List.append_assoc] using object
        · have graph := kept (";\n\t" ++ indentation quad.graph ++ predicateObject bindings quad)
          simpa [List.append_assoc] using graph
      · constructor
        · have subject := holds.subject.append (", " ++ termText bindings quad.object).toList
          simpa [List.append_assoc, subjects] using subject
        · have object := holds_termText bindings (chars ++ " , ".toList) quad.object
          simpa [List.append_assoc] using object
        · have graph := kept (", " ++ termText bindings quad.object)
          simpa [List.append_assoc] using graph

theorem HoldsQuad.occurs_continuations (holds : HoldsQuad chars previous) (bindings : Bindings)
    (rest : List Quad) {label : String} (uses : label ∈ previous.labels) :
    blankText label <:+: chars ++ (continuations bindings previous rest).toList := by
  obtain ⟨tail, continues⟩ := exists_continuations bindings previous rest
  have longer : chars ++ [' '] <:+: chars ++ ' ' :: tail := ⟨[], tail, by simp⟩
  rw [continues]
  exact (holds.occurs uses).trans longer

theorem labels_occur_from (holds : HoldsQuad chars previous) (bindings : Bindings) (rest : List Quad) :
    ∀ quad ∈ previous :: rest, ∀ label ∈ quad.labels,
      blankText label <:+: chars ++ (continuations bindings previous rest).toList := by
  -- The text grows with every quad, and what it holds of the last one is the invariant.
  induction rest generalizing previous chars with
  | nil => exact List.forall_mem_singleton.mpr fun label => holds.occurs_continuations bindings []
  | cons next rest ih =>
    refine List.forall_mem_cons.mpr ⟨fun label => holds.occurs_continuations bindings (next :: rest), ?_⟩
    have later := ih (holds.continuation bindings next)
    rwa [List.append_assoc, ← String.toList_append, ← continuations] at later

/-- A document has every label of its quads, with a space behind it. -/
theorem labels_occur (bindings : Bindings) (quads : List Quad) :
    ∀ quad ∈ quads, ∀ label ∈ quad.labels, blankText label <:+: (text bindings quads).toList := by
  cases quads with
  | nil => exact List.forall_mem_nil _
  | cons first rest =>
    have opened := holdsQuad_opened bindings (String.join (bindings.entries.map declaration)).toList first
    simpa [text, List.append_assoc] using labels_occur_from opened bindings rest

end TriG
end PlanGraph.Rdf
