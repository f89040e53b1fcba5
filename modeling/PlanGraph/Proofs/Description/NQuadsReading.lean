import PlanGraph.Graph.Export
import PlanGraph.Proofs.Description.Decoded
import PlanGraph.Proofs.Rdf.NQuadsText

/-! The N-Quads document of a graph is read as the quads of its description. The colon that names of
variables may have in front is a letter of this format. -/

set_option autoImplicit false
namespace PlanGraph
open Rdf (Quad Term Literal)

theorem IsNote.isReadable {literal : Literal} (note : IsNote literal) : literal.IsReadable := by
  cases note with
  | text value => exact .simple value
  | bool value => exact .typed (by decide) (by decide)
  | number value => exact .typed (by decide) (by decide)

theorem Vocabulary.isAbsoluteIri_of_mem {name : Iri} (listed : name ∈ words) :
    Rdf.isAbsoluteIri name.toList = true := by
  have absolute : ∀ name ∈ words, Rdf.isAbsoluteIri name.toList = true := by decide +kernel
  exact absolute name listed

namespace Graph
variable {graph : Graph}

theorem IsRead.isNamed (spelled : graph.IsRead) {node : Node} (known : graph.Knows node) :
    node.term.IsNamed := .blank (spelled.isBlankLabel_nQuads known)

theorem Tells.isWritable (spelled : graph.IsRead)
    (absolute : ∀ name, graph.Names name → Rdf.isAbsoluteIri name.toList = true) {term : Term}
    (tells : graph.Tells term) : term.IsWritable := by
  cases tells with
  | node known => exact .node (spelled.isNamed known)
  | word listed => exact .node (.iri (Vocabulary.isAbsoluteIri_of_mem listed))
  | name names => exact .node (.iri (absolute _ names))
  | note note => exact .literal note.isReadable
  | literal member tells => exact .literal (spelled.literals _ member _ tells)

theorem Says.isWritable (spelled : graph.IsRead)
    (absolute : ∀ name, graph.Names name → Rdf.isAbsoluteIri name.toList = true) {quad : Quad}
    (tells : graph.Says quad) : quad.IsWritable where
  subject := by
    obtain ⟨node, known, same⟩ := tells.subject
    exact same ▸ spelled.isNamed known
  predicate := Vocabulary.isAbsoluteIri_of_mem tells.predicate
  object := tells.object.isWritable spelled absolute
  graph := fun term place => by
    rcases tells.place term place with rfl | ⟨index, rfl⟩
    · exact .iri (by decide)
    · exact spelled.isNamed trivial

end Graph

/-- The N-Quads document of a decoded and compiled plan with absolute IRIs is read by the grammar as the
quads of the description in their order, and as nothing else. -/
theorem Plan.export_nQuads_reads {glyphs : List Text.Glyph} {plan : Plan} {hierarchy : Hierarchy}
    {roots : Roots} {graph : Graph} (decoded : Plan.ofGlyphs glyphs = .ok plan) (declared : hierarchy.Declared)
    (compiled : plan.compile hierarchy roots = .ok graph)
    (planned : ∀ name ∈ plan.iris, Rdf.isAbsoluteIri name.toList = true)
    (types : ∀ name, hierarchy.contains name = true → Rdf.isAbsoluteIri name.toList = true) :
    ∃ text, graph.export .nQuads = .ok text ∧ ∀ quads, Rdf.NQuads.Reads text quads ↔ quads = graph.quads := by
  have spelled := Plan.isRead decoded compiled
  have absolute (name : Iri) (names : graph.Names name) : Rdf.isAbsoluteIri name.toList = true := by
    rcases Plan.names_of_compile declared compiled names with given | known
    · exact planned name given
    · exact types name known
  have writable (quad : Quad) (member : quad ∈ graph.quads) : quad.IsWritable :=
    (Graph.says_quads (Plan.describable decoded compiled).fits quad member).isWritable spelled absolute
  exact ⟨_, rfl, Rdf.NQuads.reads_nQuadsText writable⟩

/-- A plan for what people of a group are quoted with, with a colon in front of the variable, a quotation in
quotes on two lines, and a language tag. -/
def quotationText : String :=
  "[\x7b\"e\":\"e:\"\x7d,[[\"main\"," ++
    "[\"?:x\",\"e:says\",\"\\\"say \\\\\\\"no\\\\\\\"\\\\n\\\\u0001\\\"@EN-gb\"]," ++
    "[null],[],[[[[\"e:member\",\"e:Person\"]],[\"e:group\"],null]]]]]"

def quotationPlan : Plan where
  prefixes := .ofList [("e", "e:")]
  entries := [
    { context := "main"
      pattern := ⟨.variable ":x", .iri "e:says", .fixed (.literal (.tagged "say \"no\"\n\x01" "en-gb"))⟩
      check := none
      cycles := []
      paths := [⟨[⟨"e:member", "e:Person"⟩], ["e:group"], none⟩] }]

theorem quotationText_decodes : Plan.ofGlyphs (Text.glyphsOfText quotationText) = .ok quotationPlan := by
  decide +kernel

def quotationTypes : Hierarchy := Hierarchy.empty.addSubtype "e:Student" "e:Person"

theorem export_nQuads_reads_quotation : ∃ graph text,
    Plan.ofGlyphs (Text.glyphsOfText quotationText) = .ok quotationPlan ∧
      quotationPlan.compile quotationTypes ⟨.ofList [":x"], ∅⟩ = .ok graph ∧
      graph.export .nQuads = .ok text ∧ (∀ quads, Rdf.NQuads.Reads text quads ↔ quads = graph.quads) ∧
      graph.variableNames.contains ":x" = true ∧
      graph.literals = [.tagged "say \"no\"\n\x01" "en-gb"] := by
  have succeeds : (quotationPlan.compile quotationTypes ⟨.ofList [":x"], ∅⟩).map (fun graph =>
      (graph.variableNames.contains ":x", graph.literals)) =
        .ok (true, [.tagged "say \"no\"\n\x01" "en-gb"]) := by decide +kernel
  obtain ⟨graph, compiled, shown⟩ := map_eq_ok.mp succeeds
  obtain ⟨named, literals⟩ := Prod.mk.inj shown
  have absolute : ∀ name ∈ quotationTypes.types, Rdf.isAbsoluteIri name.toList = true := by decide
  have types (name : Iri) (known : quotationTypes.contains name = true) :
      Rdf.isAbsoluteIri name.toList = true := absolute name (Hierarchy.contains_iff.mp known)
  obtain ⟨text, exported, reads⟩ := Plan.export_nQuads_reads quotationText_decodes
    (.addSubtype .empty "e:Student" "e:Person") compiled (by decide) types
  exact ⟨graph, text, quotationText_decodes, compiled, exported, reads, named, literals⟩

end PlanGraph
