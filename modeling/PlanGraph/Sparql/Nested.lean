import PlanGraph.Sparql.Lexical

/-! The constructs of queries that stand inside one another. Their rules are written over parsers
for what stands inside; every nesting takes a bracket or a word, so the length of a query bounds its
depth. -/

set_option autoImplicit false
namespace PlanGraph.Sparql

/-- A statement in a block: a triple, or a property path between two ends. -/
inductive Statement
  | triple (pattern : TriplePattern)
  | path (subject : PatternTerm) (path : Path) (object : PatternTerm)
deriving DecidableEq, Repr

structure DescribedNode where
  term : PatternTerm
  statements : List Statement
deriving DecidableEq, Repr

/-- Blocks in templates hold no property paths. -/
inductive BlockKind
  | template
  | pattern
deriving DecidableEq, Repr

structure Nested where
  expression : Parser Expression
  group : Parser GraphPattern
  path : Parser Path
  node : BlockKind → Parser DescribedNode

def Nested.nothing : Nested := ⟨fail, fail, fail, fun _ => fail⟩

def bracketed (nested : Nested) : Parser Expression := do
  mark "("
  let inner ← lexeme nested.expression
  symbol ")"
  return inner

def arguments (nested : Nested) : Parser (List Expression) :=
  (do
    mark "("
    let values ← separatedBy (mark ",") (lexeme nested.expression)
    symbol ")"
    return values)
  <|> (do
    emptyBrackets "(" ")"
    return [])

def variableOrIri : Parser Predicate := (.variable <$> variableName) <|> (.iri <$> iri)

end PlanGraph.Sparql
