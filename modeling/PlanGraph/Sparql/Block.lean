import PlanGraph.Sparql.Nested

/-! Blocks of triples: property paths, property lists, collections. -/

set_option autoImplicit false
namespace PlanGraph.Sparql
open Rdf (Term)
open Rdf.Vocabulary (rdfType rdfFirst rdfRest rdfNil)

def typePredicate : Parser Iri := do
  symbol "a"
  return rdfType

/-- A property in a negated set, with a mark on those that are followed backwards. -/
def negatedProperty : Parser (Bool × Iri) :=
  ((false, ·) <$> (iri <|> typePredicate))
    <|> (do
      mark "^"
      return (true, ← iri <|> typePredicate))

def negatedPath (properties : List (Bool × Iri)) : Path :=
  let forward := (properties.filter fun property => !property.1).map (·.2)
  let backward := (properties.filter fun property => property.1).map (·.2)
  if backward.isEmpty then .noneOf forward
  else if forward.isEmpty then .inverse (.noneOf backward)
  else .alternative (.noneOf forward) (.inverse (.noneOf backward))

def negatedSet : Parser Path :=
  (do
    mark "("
    let properties ← separatedBy (mark "|") (lexeme negatedProperty)
    symbol ")"
    return negatedPath properties)
  <|> (do return negatedPath [← negatedProperty])

def primaryPath (nested : Nested) : Parser Path :=
  (.iri <$> iri) <|> (.iri <$> typePredicate)
    <|> (do
      mark "!"
      negatedSet)
    <|> (do
      mark "("
      let inner ← lexeme nested.path
      symbol ")"
      return inner)

/-- A question mark is no operator where it starts a variable. -/
def zeroOrOneMark : Parser Unit := do
  symbol "?"
  match ← get with
  | [] => pure ()
  | next :: _ => require !startsVariable next

def repeatedPath (nested : Nested) : Parser Path := do
  let inner ← lexeme (primaryPath nested)
  (do symbol "*"; return .zeroOrMore inner)
    <|> (do symbol "+"; return .oneOrMore inner)
    <|> (do zeroOrOneMark; return .zeroOrOne inner)
    <|> pure inner

def directedPath (nested : Nested) : Parser Path :=
  (do
    mark "^"
    return .inverse (← repeatedPath nested))
  <|> repeatedPath nested

def pathChain (separator : String) (combine : Path → Path → Path) (item : Parser Path) :
    Parser Path := do
  let first ← lexeme item
  let rest ← many do
    mark separator
    lexeme item
  return rest.foldl combine first

def path (nested : Nested) : Parser Path :=
  pathChain "|" .alternative (pathChain "/" .sequence (directedPath nested))

/-- The statements of a path between two ends. Sequences and inverses are resolved into triples;
what repeats, chooses or negates stays a path. -/
def connect (subject object : PatternTerm) : Path → Parser (List Statement)
  | .iri name => return [.triple ⟨subject, .iri name, object⟩]
  | .inverse inner => connect object subject inner
  | .sequence first second => do
    let middle ← freshNode
    return (← connect subject middle first) ++ (← connect middle object second)
  | other => return [.path subject other object]

inductive Verb
  | path (path : Path)
  | variable (name : String)

def verb (nested : Nested) : BlockKind → Parser Verb
  | .pattern => (.path <$> path nested) <|> (.variable <$> variableName)
  | .template =>
    (.variable <$> variableName)
      <|> ((fun name => .path (.iri name)) <$> (iri <|> typePredicate))

def Verb.connect (subject object : PatternTerm) : Verb → Parser (List Statement)
  | .path route => Sparql.connect subject object route
  | .variable name => return [.triple ⟨subject, .variable name, object⟩]

def blankNode : Parser Term :=
  labelledNode <|> (do
    emptyBrackets "[" "]"
    return .blank (← freshVariable))

def term : Parser Term :=
  (.iri <$> iri) <|> (.literal <$> (stringLiteral <|> numericLiteral <|> booleanLiteral))
    <|> blankNode
    <|> (do
      emptyBrackets "(" ")"
      return .iri rdfNil)

def variableOrTerm : Parser PatternTerm := (.variable <$> variableName) <|> (.fixed <$> term)

def node (nested : Nested) (kind : BlockKind) : Parser DescribedNode :=
  ((fun term => ⟨term, []⟩) <$> variableOrTerm) <|> nested.node kind

def property (nested : Nested) (kind : BlockKind) (subject : PatternTerm) :
    Parser (List Statement) := do
  let verb ← lexeme (verb nested kind)
  let objects ← separatedBy (mark ",") (lexeme (node nested kind))
  let statements ← objects.mapM fun object => do
    return (← verb.connect subject object.term) ++ object.statements
  return statements.flatten

/-- A list of properties. Between two of them there may be several semicolons. -/
def properties (nested : Nested) (kind : BlockKind) (subject : PatternTerm) :
    Parser (List Statement) := do
  let first ← property nested kind subject
  let rest ← many do
    mark ";"
    return (← optional (property nested kind subject)).getD []
  return first ++ rest.flatten

def propertyBrackets (nested : Nested) (kind : BlockKind) : Parser DescribedNode := do
  mark "["
  let node ← freshNode
  let statements ← lexeme (properties nested kind node)
  symbol "]"
  return ⟨node, statements⟩

def cells : List DescribedNode → Parser DescribedNode
  | [] => return ⟨.iri rdfNil, []⟩
  | item :: rest => do
    let cell ← freshNode
    let next ← cells rest
    return ⟨cell, .triple ⟨cell, .iri rdfFirst, item.term⟩ :: item.statements
      ++ .triple ⟨cell, .iri rdfRest, next.term⟩ :: next.statements⟩

def collection (nested : Nested) (kind : BlockKind) : Parser DescribedNode := do
  mark "("
  let items ← many1 (lexeme (node nested kind))
  symbol ")"
  cells items

def describedNode (nested : Nested) (kind : BlockKind) : Parser DescribedNode :=
  collection nested kind <|> propertyBrackets nested kind

/-- The statements about one subject. A node with a description needs no further properties. -/
def sameSubject (nested : Nested) (kind : BlockKind) : Parser (List Statement) :=
  (do
    let subject ← lexeme variableOrTerm
    properties nested kind subject)
  <|> (do
    let node ← lexeme (describedNode nested kind)
    let more ← optional (properties nested kind node.term)
    return node.statements ++ more.getD [])

def ofStatements : List Statement → GraphPattern
  | [] => .triples []
  | .triple pattern :: rest =>
    match ofStatements rest with
    | .triples patterns => .triples (pattern :: patterns)
    | .join (.triples patterns) others => .join (.triples (pattern :: patterns)) others
    | others => .join (.triples [pattern]) others
  | .path subject path object :: rest =>
    (GraphPattern.path subject path object).joined (ofStatements rest)

def triplesBlock (nested : Nested) : Parser GraphPattern := do
  let blocks ← separatedBy (mark ".") (lexeme (sameSubject nested .pattern))
  let _ ← optional (mark ".")
  return ofStatements blocks.flatten

def triplesOf (statements : List Statement) : List TriplePattern :=
  statements.filterMap fun statement =>
    match statement with
    | .triple pattern => some pattern
    | .path _ _ _ => none

end PlanGraph.Sparql
