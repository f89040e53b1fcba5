import PlanGraph.Rdf.Term

/-! Writing quads in JSON-LD, with every IRI in full. Consecutive quads of one graph and one subject
make one object, in which every predicate has an array of its objects. -/

set_option autoImplicit false
namespace PlanGraph.Rdf.JsonLd

/-- A character inside the quotes of a JSON string. Of the control characters only the last one
stands for itself. -/
def stringChar (char : Char) : List Char := if char = '\x7f' then [char] else escapedChar char

def string (value : String) : String :=
  String.ofList ('"' :: value.toList.flatMap stringChar ++ ['"'])

def array (items : List String) : String := "[" ++ String.intercalate "," items ++ "]"

def object (members : List (String × String)) : String :=
  let texts := members.map fun (key, value) => string key ++ ":" ++ value
  "\x7b" ++ String.intercalate "," texts ++ "\x7d"

def literalObject : Literal → String
  | .simple value => object [("@value", string value)]
  | .tagged value language => object [("@language", string language), ("@value", string value)]
  | .typed value datatype => object [("@type", string datatype), ("@value", string value)]

def identifier : Term → String
  | .iri name => name
  | .blank label => "_:" ++ label
  | .literal _ => ""

def termObject : Term → String
  | .literal value => literalObject value
  | node => object [("@id", string (identifier node))]

def member (quads : List Quad) (predicate : Iri) : String × String :=
  let objects := (quads.filter (·.predicate = predicate)).map (·.object)
  (predicate, array (objects.map termObject))

def nodeObject (quads : List Quad) : String :=
  let subject := (quads.head?.map fun quad => identifier quad.subject).getD ""
  let predicates := (quads.map (·.predicate)).eraseDups
  object (("@id", string subject) :: predicates.map (member quads))

def nodeObjects (quads : List Quad) : List String :=
  (quads.splitBy fun first second => first.subject == second.subject).map nodeObject

/-- The nodes of a graph, inside an object if the graph has a name. -/
def graphObjects (quads : List Quad) : List String :=
  match quads.head?.bind (·.graph) with
  | none => nodeObjects quads
  | some name =>
    [object [("@id", string (identifier name)), ("@graph", array (nodeObjects quads))]]

def text (quads : List Quad) : String :=
  let graphs := quads.splitBy fun first second => first.graph == second.graph
  array (graphs.flatMap graphObjects)

end PlanGraph.Rdf.JsonLd
