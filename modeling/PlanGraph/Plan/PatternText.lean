import PlanGraph.Plan.Pattern
import PlanGraph.Plan.Prefixes
import PlanGraph.Rdf.LiteralText

/-! Reading the terms of triple patterns from text, and what may stand in each position. -/

set_option autoImplicit false
namespace PlanGraph
open Text

inductive Position
  | subject
  | predicate
  | object
deriving DecidableEq, Repr

def Position.text : Position → String
  | .subject => "subject"
  | .predicate => "predicate"
  | .object => "object"

inductive TermError
  | unsupported (position : Position) (term : String)
  | invalidVariable
  | invalidLiteral
deriving DecidableEq, Repr

def notSupported (position : Position) (term : String) : String :=
  "The term " ++ term ++ " is not supported as the " ++ position.text ++ " of a triple pattern"

def TermError.message : TermError → String
  | .unsupported position term => notSupported position term
  | .invalidVariable => "The variable name is not valid"
  | .invalidLiteral => "The literal is not valid"

/-- Variable names may start with a colon, which cannot follow later. -/
def isVariableName : List Char → Bool
  | [] => false
  | first :: rest =>
    (first.isDigit || first == ':' || isNameStart first) && rest.all isVariableChar

def variableName? : List Char → Option (List Char)
  | '?' :: name => some name
  | '$' :: name => some name
  | _ => none

def startsLiteral : List Char → Bool
  | [] => false
  | first :: _ => first == '"' || first.isDigit || first == '-' || first == '+'

/-- Blank nodes, quoted triples and the empty text have no place in a pattern. -/
def startsUnsupported (chars : List Char) : Bool :=
  chars.isEmpty || (after? ['_', ':'] chars).isSome || (after? ['<', '<'] chars).isSome

def PatternTerm.ofText (prefixes : Prefixes) (position : Position) (raw : String) :
    Except TermError PatternTerm :=
  let chars := trim raw.toList
  match variableName? chars with
  | some name =>
    if isVariableName name then .ok (.variable (String.ofList name)) else .error .invalidVariable
  | none =>
    if chars = ['a'] then .ok (.iri Rdf.Vocabulary.rdfType)
    else if startsLiteral chars then
      match Rdf.Literal.ofChars? chars with
      | some literal => .ok (.fixed (.literal literal))
      | none => .error .invalidLiteral
    else if startsUnsupported chars then .error (.unsupported position (String.ofList chars))
    else .ok (.iri (prefixes.expand (String.ofList chars)))

/-- Subjects are variables or IRIs, and objects may be literals as well. -/
def PatternTerm.fits : Position → PatternTerm → Bool
  | _, .fixed (.blank _) => false
  | .predicate, .variable _ => false
  | position, .fixed (.literal _) => position == .object
  | _, _ => true

def PatternTerm.ofTextAt (prefixes : Prefixes) (position : Position) (raw : String) :
    Except TermError PatternTerm := do
  let term ← PatternTerm.ofText prefixes position raw
  if term.fits position then .ok term else .error (.unsupported position term.text)

/-- Reads a triple pattern; the first term that is wrong decides on the error. -/
def TriplePattern.ofTexts (prefixes : Prefixes) (subject predicate object : String) :
    Except TermError TriplePattern := do
  let subject ← PatternTerm.ofTextAt prefixes .subject subject
  let predicate ← PatternTerm.ofText prefixes .predicate predicate
  match predicate.iri? with
  | none => .error (.unsupported .predicate predicate.text)
  | some predicate =>
    let object ← PatternTerm.ofTextAt prefixes .object object
    .ok ⟨subject, .iri predicate, object⟩

end PlanGraph
