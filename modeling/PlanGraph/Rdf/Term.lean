import PlanGraph.Rdf.Iri
import PlanGraph.Text.CharClass

/-! RDF terms, triples and quads, and their text in N-Triples and N-Quads. -/

set_option autoImplicit false
namespace PlanGraph.Rdf
open Text

def xsdNamespace : String := "http://www.w3.org/2001/XMLSchema#"

/-- A literal. Texts of the datatype `xsd:string` are simple literals; `Literal.ofTyped` keeps the
two from being told apart. -/
inductive Literal
  | simple (value : String)
  | tagged (value language : String)
  | typed (value : String) (datatype : Iri)
deriving DecidableEq, Repr, Inhabited

def Literal.ofTyped (value : String) (datatype : Iri) : Literal :=
  if datatype = xsdNamespace ++ "string" then .simple value else .typed value datatype

inductive Term
  | iri (name : Iri)
  | blank (label : String)
  | literal (value : Literal)
deriving DecidableEq, Repr, Inhabited

structure Triple where
  subject : Term
  predicate : Iri
  object : Term
deriving DecidableEq, Repr

structure Quad where
  subject : Term
  predicate : Iri
  object : Term
  graph : Option Term
deriving DecidableEq, Repr

def iriText (iri : Iri) : String := "<" ++ iri ++ ">"

def escapedChar (char : Char) : List Char :=
  match char with
  | '\x08' => ['\\', 'b']
  | '\t' => ['\\', 't']
  | '\n' => ['\\', 'n']
  | '\x0c' => ['\\', 'f']
  | '\r' => ['\\', 'r']
  | '"' => ['\\', '"']
  | '\\' => ['\\', '\\']
  | _ =>
    if char.toNat < 0x20 ∨ char.toNat = 0x7F then '\\' :: 'u' :: hexDigits 4 char.toNat else [char]

def quotedText (value : String) : String :=
  String.ofList ('"' :: value.toList.flatMap escapedChar ++ ['"'])

def Literal.text : Literal → String
  | .simple value => quotedText value
  | .tagged value language => quotedText value ++ "@" ++ language
  | .typed value datatype => quotedText value ++ "^^" ++ iriText datatype

/-- The term in N-Triples. -/
def Term.text : Term → String
  | .iri name => iriText name
  | .blank label => "_:" ++ label
  | .literal value => value.text

def Quad.text (quad : Quad) : String :=
  let triple := quad.subject.text ++ " " ++ iriText quad.predicate ++ " " ++ quad.object.text
  match quad.graph with
  | none => triple
  | some graph => triple ++ " " ++ graph.text

def nQuadsText (quads : List Quad) : String :=
  String.join (quads.map fun quad => quad.text ++ " .\n")

end PlanGraph.Rdf
