import PlanGraph.Rdf.Vocabulary

/-! Triple patterns: triples in which variables may stand for terms. -/

set_option autoImplicit false
namespace PlanGraph

inductive PatternTerm
  | variable (name : String)
  | fixed (term : Rdf.Term)
deriving DecidableEq, Repr, Inhabited

inductive Predicate
  | iri (name : Iri)
  | variable (name : String)
deriving DecidableEq, Repr, Inhabited

structure TriplePattern where
  subject : PatternTerm
  predicate : Predicate
  object : PatternTerm
deriving DecidableEq, Repr, Inhabited

def PatternTerm.iri (name : Iri) : PatternTerm := .fixed (.iri name)

def PatternTerm.iri? : PatternTerm → Option Iri
  | .fixed (.iri name) => some name
  | _ => none

def PatternTerm.variable? : PatternTerm → Option String
  | .variable name => some name
  | _ => none

def variableText (name : String) : String := "?" ++ name

def PatternTerm.text : PatternTerm → String
  | .variable name => variableText name
  | .fixed term => term.text

def TriplePattern.isTypePattern (pattern : TriplePattern) : Bool :=
  pattern.predicate == .iri Rdf.Vocabulary.rdfType

/-- The type that the pattern asserts: the IRI object of a pattern that asks for a type. -/
def TriplePattern.assertedType? (pattern : TriplePattern) : Option Iri :=
  if pattern.isTypePattern then pattern.object.iri? else none

end PlanGraph
