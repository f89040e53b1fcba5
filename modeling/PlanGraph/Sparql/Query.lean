import PlanGraph.Roots
import PlanGraph.Sparql.Group

/-! Whole queries, and the roots of their patterns. -/

set_option autoImplicit false
namespace PlanGraph.Sparql

inductive Query
  | select (pattern : GraphPattern)
  | construct (template : List TriplePattern) (pattern : GraphPattern)
  | describe (pattern : GraphPattern)
  | ask (pattern : GraphPattern)

def Query.pattern : Query → GraphPattern
  | .select pattern => pattern
  | .construct _ pattern => pattern
  | .describe pattern => pattern
  | .ask pattern => pattern

def everything : Selection := ⟨.everything, .kept⟩

def baseDeclaration : Parser Unit := do
  word "BASE"
  let iri ← bracketedIri
  modifyContext fun context => { context with base := some iri }

def prefixDeclaration : Parser Unit := do
  word "PREFIX"
  let name ← lexeme prefixColon
  let iri ← bracketedIri
  modifyContext fun context => { context with prefixes := context.prefixes.insert name iri }

def prologue : Parser Unit := do
  let _ ← many (lexeme (baseDeclaration <|> prefixDeclaration))

/-- A named source of data, which has no influence on the pattern. -/
def datasetClause : Parser Unit := do
  word "FROM"
  let _ ← iri <|> (do word "NAMED"; iri)

def datasetClauses : Parser Unit := do
  let _ ← many (lexeme datasetClause)

def selectQuery (nested : Nested) : Parser Query := do
  let selection ← lexeme (selectClause nested)
  datasetClauses
  return .select (← completeQuery nested selection (← whereClause nested))

def templateBlocks (nested : Nested) : Parser (List TriplePattern) := do
  let blocks ← separatedBy (mark ".") (lexeme (sameSubject nested .template))
  return triplesOf blocks.flatten

/-- A template in braces. A dot may end it, even if nothing stands before the dot. -/
def template (nested : Nested) : Parser (List TriplePattern) := do
  mark "\x7b"
  let triples ← lexeme (optional (templateBlocks nested))
  let _ ← optional (mark ".")
  symbol "\x7d"
  return triples.getD []

/-- A template in braces that is a pattern as well. A dot may end its blocks. -/
def sharedTemplate (nested : Nested) : Parser (List TriplePattern) := do
  mark "\x7b"
  let triples ← optional do
    let triples ← templateBlocks nested
    let _ ← optional (mark ".")
    return triples
  symbol "\x7d"
  return triples.getD []

def templateQuery (nested : Nested) : Parser Query := do
  word "CONSTRUCT"
  let triples ← lexeme (template nested)
  datasetClauses
  let pattern ← whereClause nested
  return .construct triples (← completeQuery nested everything pattern)

def shortQuery (nested : Nested) : Parser Query := do
  word "CONSTRUCT"
  datasetClauses
  word "WHERE"
  let triples ← sharedTemplate nested
  return .construct triples (← completeQuery nested everything (.triples triples))

def describedItem : Parser SelectedItem := do
  match ← variableOrIri with
  | .variable name => return .variable name
  | .iri name => return .expression (.constant (.iri name)) (← freshVariable)

def describeQuery (nested : Nested) : Parser Query := do
  word "DESCRIBE"
  let selection ←
    (do mark "*"; return everything)
    <|> (do return ⟨.items (← many1 (lexeme describedItem)), .kept⟩)
  datasetClauses
  let pattern ← optional (whereClause nested)
  return .describe (← completeQuery nested selection (pattern.getD (.triples [])))

def askQuery (nested : Nested) : Parser Query := do
  word "ASK"
  datasetClauses
  return .ask (← completeQuery nested everything (← whereClause nested))

def wholeQuery (nested : Nested) : Parser Query := do
  space
  prologue
  let query ← lexeme
    (selectQuery nested <|> templateQuery nested <|> shortQuery nested <|> describeQuery nested
      <|> askQuery nested)
  require (← get).isEmpty
  return query

def Query.ofText? (text : String) : Option Query :=
  let chars := text.toList
  (Id.run (((wholeQuery (nestedTo (chars.length + 1))).run' chars).run.run Context.start)).1

end PlanGraph.Sparql

namespace PlanGraph

def Roots.ofQuery (query : Sparql.Query) : Roots := .ofPatterns query.pattern.triplePatterns

end PlanGraph
