import PlanGraph.Hierarchy
import PlanGraph.Turtle.Document

/-! Type hierarchies from vocabularies: classes and their subclasses in a Turtle document. -/

set_option autoImplicit false
namespace PlanGraph
open Rdf Rdf.Vocabulary

namespace Hierarchy

def addTriple (hierarchy : Hierarchy) (triple : Triple) : Hierarchy :=
  match triple.subject, triple.object with
  | .iri subject, .iri object =>
    if triple.predicate = rdfType ∧ (object = owlClass ∨ object = rdfsClass) then
      hierarchy.addType subject
    else if triple.predicate = rdfsSubClassOf then hierarchy.addSubtype subject object
    else hierarchy
  | _, _ => hierarchy

/-- Loads a vocabulary. A faulty document takes effect up to its fault. -/
def load (hierarchy : Hierarchy) (document : Turtle.Document) : Hierarchy :=
  document.triples.foldl addTriple hierarchy

end Hierarchy

def Hierarchy.ofGlyphs? (glyphs : List Text.Glyph) : Option Hierarchy :=
  let document := Turtle.Document.ofGlyphs glyphs
  if document.complete then some (Hierarchy.empty.load document) else none

end PlanGraph
