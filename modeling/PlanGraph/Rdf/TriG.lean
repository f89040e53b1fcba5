import PlanGraph.OrderedMap
import PlanGraph.Rdf.LiteralText

/-! Writing quads in TriG. Consecutive quads share their graph, subject and predicate where these
are equal, and IRIs are abbreviated under the declared namespaces. -/

set_option autoImplicit false
namespace PlanGraph.Rdf.TriG
open Text

/-- Prefixes by their namespaces. -/
abbrev Bindings := OrderedMap String String

/-- A character of a local name: as it is, after a backslash, or not at all. -/
def localChar? (allowed : Char → Bool) (char : Char) : Option (List Char) :=
  if allowed char then some [char]
  else if isLocalEscape char then some ['\\', char]
  else none

/-- The characters after the first. A dot stands as it is unless it comes last. -/
def localTail? : List Char → Option (List Char)
  | [] => some []
  | char :: rest => do
    let allowed := fun char => isNameChar char || char == ':' || (char == '.' && !rest.isEmpty)
    return (← localChar? allowed char) ++ (← localTail? rest)

def localName? : List Char → Option (List Char)
  | [] => some []
  | first :: rest => do
    let allowed := fun char => isNameStart char || char == ':' || char.isDigit
    return (← localChar? allowed first) ++ (← localTail? rest)

def prefixedName? (iri : List Char) (binding : String × String) : Option String :=
  ((after? binding.1.toList iri).bind localName?).map fun name =>
    binding.2 ++ ":" ++ String.ofList name

def iriName (bindings : Bindings) (iri : Iri) : String :=
  (bindings.entries.findSome? (prefixedName? iri.toList)).getD (iriText iri)

/-- Tells whether a value is the token of its datatype: a truth value, or a number with digits
before its exponent. -/
def isBare (value datatype : String) : Bool :=
  if datatype = Vocabulary.xsdBoolean then value == "true" || value == "false"
  else
    match NumberParts.ofChars? value.toList with
    | some parts =>
      parts.datatype? == some datatype
        && (!parts.whole.isEmpty || parts.fraction.any fun digits => !digits.isEmpty)
    | none => false

def literalText (bindings : Bindings) : Literal → String
  | .typed value datatype =>
    if isBare value datatype then value
    else quotedText value ++ "^^" ++ iriName bindings datatype
  | other => other.text

def termText (bindings : Bindings) : Term → String
  | .iri name => iriName bindings name
  | .blank label => "_:" ++ label
  | .literal value => literalText bindings value

def predicateText (bindings : Bindings) (predicate : Iri) : String :=
  if predicate = Vocabulary.rdfType then "a" else iriName bindings predicate

def predicateObject (bindings : Bindings) (quad : Quad) : String :=
  predicateText bindings quad.predicate ++ " " ++ termText bindings quad.object

def statement (bindings : Bindings) (quad : Quad) : String :=
  termText bindings quad.subject ++ " " ++ predicateObject bindings quad

def indentation (graph : Option Term) : String := if graph.isSome then "\t" else ""

def opening (bindings : Bindings) : Option Term → String
  | none => ""
  | some name => termText bindings name ++ " \x7b\n\t"

def closing (graph : Option Term) : String := if graph.isSome then " .\n\x7d\n" else " .\n"

def continuation (bindings : Bindings) (previous quad : Quad) : String :=
  if quad.graph ≠ previous.graph then
    closing previous.graph ++ opening bindings quad.graph ++ statement bindings quad
  else if quad.subject ≠ previous.subject then
    " .\n" ++ indentation quad.graph ++ statement bindings quad
  else if quad.predicate ≠ previous.predicate then
    " ;\n\t" ++ indentation quad.graph ++ predicateObject bindings quad
  else " , " ++ termText bindings quad.object

def continuations (bindings : Bindings) (previous : Quad) : List Quad → String
  | [] => closing previous.graph
  | quad :: rest => continuation bindings previous quad ++ continuations bindings quad rest

def declaration (binding : String × String) : String :=
  "@prefix " ++ binding.2 ++ ": <" ++ binding.1 ++ "> .\n"

def text (bindings : Bindings) : List Quad → String
  | [] => ""
  | quad :: rest =>
    String.join (bindings.entries.map declaration) ++ opening bindings quad.graph
      ++ statement bindings quad ++ continuations bindings quad rest

end PlanGraph.Rdf.TriG
