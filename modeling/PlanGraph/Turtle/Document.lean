import PlanGraph.OrderedMap
import PlanGraph.Turtle.Token

/-! Reading Turtle documents. The reader takes token after token and states a triple as soon as its
object is known, so the triples before a fault are known as well. -/

set_option autoImplicit false
namespace PlanGraph.Turtle
open Rdf Text

structure Slot where
  subject : Term
  predicate : Iri
deriving DecidableEq, Repr

/-- A construct that is still open. Objects in a list fill the slots of its cells. -/
inductive Frame
  | subjectProperties (node : Term)
  | objectProperties (outer : Slot)
  | subjectList (head : Term)
  | objectList (outer : Slot)
deriving DecidableEq, Repr

inductive Expecting
  | statement
  | base (dotted : Bool)
  | prefixName (dotted : Bool)
  | prefixIri (name : List Char) (dotted : Bool)
  | dot
  | verb (subject : Term)
  | verbOrEnd (subject : Term)
  | subjectBracket (node : Term)
  | objectBracket (slot : Slot) (node : Term)
  | subjectItem
  | objectItem (slot : Slot)
  | afterSubject (node : Term)
  | object (slot : Slot)
  | afterObject (slot : Slot)
  | suffix (slot : Slot) (content : List Char)
  | datatype (slot : Slot) (content : List Char)
deriving DecidableEq, Repr

structure Reader where
  base : Option Iri
  prefixes : OrderedMap String Iri
  expecting : Expecting
  frames : List Frame
  fresh : Nat
deriving DecidableEq

def Reader.start : Reader := ⟨none, ∅, .statement, [], 0⟩

abbrev Progress := Option (Reader × List Triple)

namespace Reader

/-- A blank node of the reader's own: labels in documents do not start with a dot. -/
def freshNode (reader : Reader) : Term := .blank ("." ++ toString reader.fresh)

def expect (reader : Reader) (expecting : Expecting) (triples : List Triple) : Progress :=
  some ({ reader with expecting }, triples)

def openFrame (reader : Reader) (frame : Frame) : Reader :=
  { reader with frames := frame :: reader.frames }

def closeFrame (reader : Reader) : Reader := { reader with frames := reader.frames.drop 1 }

def countFresh (reader : Reader) : Reader := { reader with fresh := reader.fresh + 1 }

/-- A name under a declared prefix. It is an IRI without further proof if the namespace has a path
and no unit of the name raises a doubt. -/
def resolveName? (reader : Reader) (namePrefix : List Char) (localName : LocalName) : Option Iri :=
  (reader.prefixes.find? (String.ofList namePrefix)).bind fun namespaceIri =>
    let written := namespaceIri.toList ++ localName.text
    if localName.doubtful || (IriParts.ofChars namespaceIri.toList).path.isEmpty then
      resolveIri? none written
    else some (String.ofList written)

def iri? (reader : Reader) : Token → Option Iri
  | .iri written => resolveIri? reader.base written
  | .name namePrefix localName => reader.resolveName? namePrefix localName
  | _ => none

def term? (reader : Reader) : Token → Option Term
  | .blank label => some (.blank (String.ofList label))
  | .number literal => some (.literal literal)
  | .word letters =>
    if letters = "true".toList ∨ letters = "false".toList then
      some (.literal (.typed (String.ofList letters) Vocabulary.xsdBoolean))
    else none
  | token => (reader.iri? token).map .iri

def isWord (word : String) (letters : List Char) : Bool :=
  String.ofList (letters.map Char.toLower) == word

def subject (reader : Reader) (token : Token) : Progress :=
  match token with
  | .mark '[' => reader.countFresh.expect (.subjectBracket reader.freshNode) []
  | .mark '(' => reader.expect .subjectItem []
  | .blank label => reader.expect (.verb (.blank (String.ofList label))) []
  | token => (reader.iri? token).bind fun iri => reader.expect (.verb (.iri iri)) []

/-- A directive or a statement. Directives in capitals or small letters have no mark and no dot. -/
def statement (reader : Reader) (token : Token) : Progress :=
  match token with
  | .language tag =>
    if tag = "prefix".toList then reader.expect (.prefixName true) []
    else if tag = "base".toList then reader.expect (.base true) []
    else none
  | .word letters =>
    if isWord "prefix" letters then reader.expect (.prefixName false) []
    else if isWord "base" letters then reader.expect (.base false) []
    else none
  | token => reader.subject token

def endDirective (reader : Reader) (dotted : Bool) : Progress :=
  reader.expect (if dotted then .dot else .statement) []

def verb (reader : Reader) (subject : Term) (token : Token) : Progress :=
  match token with
  | .word letters =>
    if letters = ['a'] then reader.expect (.object ⟨subject, Vocabulary.rdfType⟩) [] else none
  | token =>
    (reader.iri? token).bind fun predicate => reader.expect (.object ⟨subject, predicate⟩) []

def object (reader : Reader) (slot : Slot) (token : Token) : Progress :=
  match token with
  | .mark '[' => reader.countFresh.expect (.objectBracket slot reader.freshNode) []
  | .mark '(' => reader.expect (.objectItem slot) []
  | .string content => reader.expect (.suffix slot content) []
  | token =>
    (reader.term? token).bind fun term =>
      reader.expect (.afterObject slot) [⟨slot.subject, slot.predicate, term⟩]

def endProperties (reader : Reader) (subject : Term) (token : Token) : Progress :=
  match reader.frames, token with
  | [], .mark '.' => reader.expect .statement []
  | .subjectProperties node :: _, .mark ']' => reader.closeFrame.expect (.afterSubject node) []
  | .objectProperties outer :: _, .mark ']' =>
    reader.closeFrame.expect (.afterObject outer) [⟨outer.subject, outer.predicate, subject⟩]
  | _, _ => none

def firstCell (reader : Reader) (token : Token) : Progress :=
  reader.countFresh.object ⟨reader.freshNode, Vocabulary.rdfFirst⟩ token

def closeList (cell : Term) : Triple := ⟨cell, Vocabulary.rdfRest, .iri Vocabulary.rdfNil⟩

def nextCell (reader : Reader) (cell : Term) (token : Token) : Progress :=
  (reader.firstCell token).map fun (next, triples) =>
    (next, ⟨cell, Vocabulary.rdfRest, reader.freshNode⟩ :: triples)

def afterObject (reader : Reader) (slot : Slot) (token : Token) : Progress :=
  match reader.frames, token with
  | .subjectList head :: _, .mark ')' =>
    reader.closeFrame.expect (.verb head) [closeList slot.subject]
  | .objectList outer :: _, .mark ')' =>
    reader.closeFrame.expect (.afterObject outer) [closeList slot.subject]
  | .subjectList _ :: _, token => reader.nextCell slot.subject token
  | .objectList _ :: _, token => reader.nextCell slot.subject token
  | _, .mark ',' => reader.expect (.object slot) []
  | _, .mark ';' => reader.expect (.verbOrEnd slot.subject) []
  | _, token => reader.endProperties slot.subject token

/-- A literal is stated once the token after it is known not to belong to it. -/
def suffix (reader : Reader) (slot : Slot) (content : List Char) (token : Token) : Progress :=
  let value := String.ofList content
  let state (literal : Literal) : Triple := ⟨slot.subject, slot.predicate, .literal literal⟩
  match token with
  | .language tag =>
    reader.expect (.afterObject slot)
      [state (.tagged value (String.ofList (tag.map Char.toLower)))]
  | .datatypeMark => reader.expect (.datatype slot content) []
  | token =>
    (reader.afterObject slot token).map fun (next, triples) =>
      (next, state (.simple value) :: triples)

def datatype (reader : Reader) (slot : Slot) (content : List Char) (token : Token) : Progress :=
  (reader.iri? token).bind fun datatype =>
    reader.expect (.afterObject slot)
      [⟨slot.subject, slot.predicate, .literal (.ofTyped (String.ofList content) datatype)⟩]

def next (reader : Reader) (token : Token) : Progress :=
  match reader.expecting, token with
  | .statement, token => reader.statement token
  | .base dotted, .iri written =>
    (resolveIri? reader.base written).bind fun iri =>
      endDirective { reader with base := some iri } dotted
  | .prefixName dotted, .name name ⟨[], _⟩ => reader.expect (.prefixIri name dotted) []
  | .prefixIri name dotted, .iri written =>
    (resolveIri? reader.base written).bind fun iri =>
      endDirective { reader with prefixes := reader.prefixes.insert (String.ofList name) iri } dotted
  | .dot, .mark '.' => reader.expect .statement []
  | .verb subject, token => reader.verb subject token
  | .verbOrEnd subject, .mark ';' => reader.expect (.verbOrEnd subject) []
  | .verbOrEnd subject, .mark '.' => reader.endProperties subject (.mark '.')
  | .verbOrEnd subject, .mark ']' => reader.endProperties subject (.mark ']')
  | .verbOrEnd subject, token => reader.verb subject token
  | .subjectBracket node, .mark ']' => reader.expect (.verb node) []
  | .subjectBracket node, token => (reader.openFrame (.subjectProperties node)).verb node token
  | .objectBracket slot node, .mark ']' =>
    reader.expect (.afterObject slot) [⟨slot.subject, slot.predicate, node⟩]
  | .objectBracket slot node, token => (reader.openFrame (.objectProperties slot)).verb node token
  | .subjectItem, .mark ')' => reader.expect (.verb (.iri Vocabulary.rdfNil)) []
  | .subjectItem, token => (reader.openFrame (.subjectList reader.freshNode)).firstCell token
  | .objectItem slot, .mark ')' =>
    reader.expect (.afterObject slot)
      [⟨slot.subject, slot.predicate, .iri Vocabulary.rdfNil⟩]
  | .objectItem slot, token =>
    ((reader.openFrame (.objectList slot)).firstCell token).map fun (next, triples) =>
      (next, ⟨slot.subject, slot.predicate, reader.freshNode⟩ :: triples)
  | .afterSubject _, .mark '.' => reader.expect .statement []
  | .afterSubject node, token => reader.verb node token
  | .object slot, token => reader.object slot token
  | .afterObject slot, token => reader.afterObject slot token
  | .suffix slot content, token => reader.suffix slot content token
  | .datatype slot content, token => reader.datatype slot content token
  | _, _ => none

def run (reader : Reader) : List Token → List Triple × Bool
  | [] => ([], reader.expecting = .statement)
  | token :: rest =>
    match reader.next token with
    | none => ([], false)
    | some (next, triples) =>
      let (others, complete) := next.run rest
      (triples ++ others, complete)

end Reader

structure Document where
  triples : List Triple
  complete : Bool
deriving DecidableEq, Repr

def Document.ofGlyphs (glyphs : List Glyph) : Document :=
  let (triples, complete) := Reader.start.run (tokens glyphs)
  ⟨triples, complete⟩

end PlanGraph.Turtle
