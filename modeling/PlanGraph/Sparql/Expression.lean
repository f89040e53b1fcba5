import PlanGraph.Sparql.Nested

/-! Expressions of queries: operators, function calls and aggregates. -/

set_option autoImplicit false
namespace PlanGraph.Sparql
open Rdf (Term)

/-- The functions with a fixed number of arguments. -/
def functions : List (String × Nat) :=
  [("STR", 1), ("LANG", 1), ("LANGMATCHES", 2), ("DATATYPE", 1), ("IRI", 1), ("URI", 1),
   ("BNODE", 1), ("ABS", 1), ("CEIL", 1), ("FLOOR", 1), ("ROUND", 1), ("SUBSTR", 3),
   ("SUBSTR", 2), ("STRLEN", 1), ("REPLACE", 4), ("REPLACE", 3), ("UCASE", 1), ("LCASE", 1),
   ("ENCODE_FOR_URI", 1), ("CONTAINS", 2), ("STRSTARTS", 2), ("STRENDS", 2), ("STRBEFORE", 2),
   ("STRAFTER", 2), ("YEAR", 1), ("MONTH", 1), ("DAY", 1), ("HOURS", 1), ("MINUTES", 1),
   ("SECONDS", 1), ("TIMEZONE", 1), ("TZ", 1), ("MD5", 1), ("SHA1", 1), ("SHA256", 1),
   ("SHA384", 1), ("SHA512", 1), ("IF", 3), ("STRLANG", 2), ("STRDT", 2), ("sameTerm", 2),
   ("isIRI", 1), ("isURI", 1), ("isBLANK", 1), ("isLITERAL", 1), ("isNUMERIC", 1), ("REGEX", 3),
   ("REGEX", 2)]

def constants : List String := ["BNODE", "RAND", "NOW", "UUID", "STRUUID"]

def simpleAggregates : List String := ["COUNT", "SUM", "MIN", "MAX", "AVG", "SAMPLE"]

/-- The functions whose names the opening bracket has to touch. -/
def touchingFunctions : List String :=
  ["BNODE", "CONCAT", "ENCODE_FOR_URI", "MD5", "SHA1", "SHA256", "SHA384", "SHA512", "COALESCE",
   "sameTerm", "isBLANK", "isLITERAL", "isNUMERIC"]

def functionName (name : String) : Parser Unit :=
  if touchingFunctions.contains name then keyword name else word name

def firstOf {α : Type} (parsers : List (Parser α)) : Parser α :=
  parsers.foldr (fun parser others => parser <|> others) fail

def exactly (count : Nat) (parser : Parser Expression) : Parser (List Expression) := do
  let values ← separatedBy (mark ",") (lexeme parser)
  require (values.length == count)
  return values

def call (nested : Nested) (function : String × Nat) : Parser Expression := do
  functionName function.1
  mark "("
  let values ← exactly function.2 nested.expression
  symbol ")"
  return .apply function.1 values

def constant (name : String) : Parser Expression := do
  functionName name
  emptyBrackets "(" ")"
  return .apply name []

/-- Adds an aggregate to the innermost query that selects. Other queries have no aggregates. -/
def aggregated (function : String) (distinct : Bool) (values : List Expression)
    (separator : Option String) : Parser Expression := do
  match (← context).aggregates with
  | [] => fail
  | innermost :: others =>
    let name ← freshVariable
    let aggregate := Aggregate.mk name function distinct values separator
    modifyContext fun context =>
      { context with aggregates := (innermost ++ [aggregate]) :: others }
    return .variable name

def aggregateArgument (nested : Nested) (distinct : Bool) : Parser (List Expression) := do
  if distinct then word "DISTINCT"
  return [← lexeme nested.expression]

def aggregateOf (function : String) (distinct : Bool) (inside : Parser (List Expression)) :
    Parser Expression := do
  word function
  mark "("
  let values ← inside
  symbol ")"
  aggregated function distinct values none

def countAll (distinct : Bool) : Parser Expression :=
  aggregateOf "COUNT" distinct do
    if distinct then word "DISTINCT"
    mark "*"
    return []

def separatorClause : Parser String := do
  mark ";"
  word "SEPARATOR"
  mark "="
  return String.ofList (← lexeme string)

def concatenation (nested : Nested) (distinct separated : Bool) : Parser Expression := do
  word "GROUP_CONCAT"
  mark "("
  let values ← aggregateArgument nested distinct
  let separator ← if separated then some <$> separatorClause else pure none
  symbol ")"
  aggregated "GROUP_CONCAT" distinct values separator

def customAggregate (nested : Nested) (distinct : Bool) : Parser Expression := do
  let name ← lexeme iri
  mark "("
  let values ← aggregateArgument nested distinct
  symbol ")"
  aggregated name distinct values none

def aggregate (nested : Nested) : Parser Expression :=
  countAll true <|> countAll false
    <|> firstOf (simpleAggregates.flatMap fun function =>
      [aggregateOf function true (aggregateArgument nested true),
        aggregateOf function false (aggregateArgument nested false)])
    <|> concatenation nested true true <|> concatenation nested true false
    <|> concatenation nested false true <|> concatenation nested false false
    <|> customAggregate nested true <|> customAggregate nested false

def boundTest : Parser Expression := do
  word "BOUND"
  mark "("
  let name ← lexeme variableName
  symbol ")"
  return .isBound name

def concatCall (nested : Nested) : Parser Expression := do
  functionName "CONCAT"
  return .apply "CONCAT" (← arguments nested)

def coalesceCall (nested : Nested) : Parser Expression := do
  functionName "COALESCE"
  return .coalesce (← arguments nested)

def patternTest (nested : Nested) : Parser Expression :=
  (do
    word "EXISTS"
    return .holds (← nested.group))
  <|> (do
    word "NOT"
    word "EXISTS"
    return .apply "!" [.holds (← nested.group)])

def builtInCall (nested : Nested) : Parser Expression :=
  aggregate nested <|> boundTest <|> concatCall nested <|> coalesceCall nested
    <|> firstOf (functions.map (call nested)) <|> firstOf (constants.map constant)
    <|> patternTest nested

def functionCall (nested : Nested) : Parser Expression := do
  let name ← lexeme iri
  return .apply name (← arguments nested)

def iriOrCall (nested : Nested) : Parser Expression := do
  let name ← lexeme iri
  match ← optional (arguments nested) with
  | some values => return .apply name values
  | none => return .constant (.iri name)

def primary (nested : Nested) : Parser Expression :=
  bracketed nested <|> iriOrCall nested <|> (.variable <$> variableName)
    <|> ((fun literal => .constant (.literal literal)) <$>
      (stringLiteral <|> numericLiteral <|> booleanLiteral))
    <|> builtInCall nested

def operator (names : List String) : Parser String :=
  firstOf (names.map fun name => do mark name; return name)

def unary (nested : Nested) : Parser Expression :=
  (do
    let name ← operator ["!", "+", "-"]
    return .apply name [← primary nested])
  <|> primary nested

/-- Operands with operators of one rank between them. -/
def chain (operators : List String) (operand : Parser Expression) : Parser Expression := do
  let first ← lexeme operand
  let rest ← many do
    let name ← operator operators
    return (name, ← lexeme operand)
  return rest.foldl (fun left step => .apply step.1 [left, step.2]) first

def multiplicative (nested : Nested) : Parser Expression := chain ["*", "/"] (unary nested)

def additive (nested : Nested) : Parser Expression := chain ["+", "-"] (multiplicative nested)

def comparison (nested : Nested) (left : Expression) : Parser Expression :=
  (do
    let name ← operator ["=", "!=", ">=", ">", "<=", "<"]
    return .apply name [left, ← additive nested])
  <|> (do
    word "IN"
    return .apply "IN" (left :: (← arguments nested)))
  <|> (do
    word "NOT"
    word "IN"
    return .apply "NOT IN" (left :: (← arguments nested)))

def relational (nested : Nested) : Parser Expression := do
  let left ← additive nested
  return (← optional (comparison nested left)).getD left

def conjunction (nested : Nested) : Parser Expression := chain ["&&"] (relational nested)

def expression (nested : Nested) : Parser Expression := chain ["||"] (conjunction nested)

def constraint (nested : Nested) : Parser Expression :=
  bracketed nested <|> functionCall nested <|> builtInCall nested

end PlanGraph.Sparql
