import PlanGraph.Sparql.Block
import PlanGraph.Sparql.Expression
import PlanGraph.Sparql.Selection

/-! Groups of graph patterns, the clauses of queries around them, and queries inside groups. -/

set_option autoImplicit false
namespace PlanGraph.Sparql
open Rdf (Term)

inductive GroupElement
  | optional (pattern : GraphPattern)
  | minus (pattern : GraphPattern)
  | bind (value : Expression) (name : String)
  | filter (condition : Expression)
  | other (pattern : GraphPattern)

def optionalPattern (nested : Nested) : Parser GroupElement := do
  word "OPTIONAL"
  return .optional (← nested.group)

def minusPattern (nested : Nested) : Parser GroupElement := do
  word "MINUS"
  return .minus (← nested.group)

def graphPattern (nested : Nested) : Parser GroupElement := do
  word "GRAPH"
  let name ← lexeme variableOrIri
  return .other (.graph name (← nested.group))

def serviceCall (nested : Nested) (silent : Bool) : Parser GroupElement := do
  let name ← lexeme variableOrIri
  return .other (.service name (← nested.group) silent)

/-- A call of a service. A name that begins like the keyword is tried as a name afterwards. -/
def servicePattern (nested : Nested) : Parser GroupElement := do
  word "SERVICE"
  (do word "SILENT"; serviceCall nested true) <|> serviceCall nested false

def filterClause (nested : Nested) : Parser GroupElement := do
  word "FILTER"
  return .filter (← constraint nested)

def asVariable : Parser String := do
  word "AS"
  lexeme variableName

def bindClause (nested : Nested) : Parser GroupElement := do
  word "BIND"
  mark "("
  let value ← lexeme nested.expression
  let name ← asVariable
  symbol ")"
  return .bind value name

def dataValue : Parser (Option Term) :=
  ((fun name => some (Term.iri name)) <$> iri)
    <|> ((fun literal => some (Term.literal literal)) <$>
      (stringLiteral <|> numericLiteral <|> booleanLiteral))
    <|> (do
      keyword "UNDEF"
      return none)

def oneVariableData : Parser GraphPattern := do
  let name ← lexeme variableName
  mark "\x7b"
  let values ← many (lexeme dataValue)
  symbol "\x7d"
  return .values [name] (values.map fun value => [value])

def dataRow : Parser (List (Option Term)) := do
  mark "("
  let values ← many (lexeme dataValue)
  symbol ")"
  return values

def tableData : Parser GraphPattern := do
  mark "("
  let names ← many (lexeme variableName)
  mark ")"
  mark "\x7b"
  let rows ← many (lexeme dataRow)
  symbol "\x7d"
  require (rows.all fun row => row.length == names.length)
  return .values names rows

def dataBlock : Parser GraphPattern := do
  word "VALUES"
  oneVariableData <|> tableData

def unionPattern (nested : Nested) : Parser GroupElement := do
  let first ← lexeme nested.group
  let others ← many do
    word "UNION"
    lexeme nested.group
  return .other (others.foldl .union first)

def groupElement (nested : Nested) : Parser GroupElement :=
  unionPattern nested <|> optionalPattern nested <|> minusPattern nested <|> graphPattern nested
    <|> servicePattern nested <|> filterClause nested <|> bindClause nested
    <|> (.other <$> dataBlock)

def elementAndBlock (nested : Nested) : Parser (List GroupElement) := do
  let element ← lexeme (groupElement nested)
  let _ ← optional (mark ".")
  let block ← optional (lexeme (triplesBlock nested))
  return element :: (block.map GroupElement.other).toList

/-- The filters of an optional pattern are the condition of the left join. -/
def leftJoined (left : GraphPattern) : GraphPattern → GraphPattern
  | .filter condition inner => .leftJoin left inner (some condition)
  | right => .leftJoin left right none

/-- Adds an element to a group. A variable may be bound only if it is not in scope yet. -/
def addElement (pattern : GraphPattern) : GroupElement → Option GraphPattern
  | .optional right => some (leftJoined pattern right)
  | .minus right => some (.minus pattern right)
  | .bind value name =>
    if pattern.scope.contains name then none else some (.extend pattern name value)
  | .filter _ => some pattern
  | .other right => some (pattern.joined right)

def filterConditions (elements : List GroupElement) : List Expression :=
  elements.filterMap fun element =>
    match element with
    | .filter condition => some condition
    | _ => none

/-- The pattern of a group; its filters hold for the group as a whole. -/
def ofElements (start : GraphPattern) (elements : List GroupElement) : Option GraphPattern :=
  (elements.foldlM addElement start).map fun pattern =>
    match filterConditions elements with
    | [] => pattern
    | first :: rest =>
      .filter (rest.foldl (fun left right => .apply "&&" [left, right]) first) pattern

def groupBody (nested : Nested) : Parser GraphPattern := do
  let block ← optional (lexeme (triplesBlock nested))
  let elements ← many (elementAndBlock nested)
  ofOption (ofElements (block.getD (.triples [])) elements.flatten)

def whereClause (nested : Nested) : Parser GraphPattern := do
  let _ ← optional (word "WHERE")
  nested.group

def groupKey (nested : Nested) : Parser (Expression × Option String) :=
  ((·, none) <$> (builtInCall nested <|> functionCall nested))
    <|> (do
      mark "("
      let key ← lexeme nested.expression
      let name ← optional asVariable
      symbol ")"
      return (key, name))
    <|> ((fun name => (.variable name, none)) <$> variableName)

def keyVariable : Expression × Option String → Parser (String × Option (Expression × String))
  | (.variable name, _) => return (name, none)
  | (key, some name) => return (name, some (key, name))
  | (key, none) => do
    let name ← freshVariable
    return (name, some (key, name))

def groupClause (nested : Nested) : Parser (List String × List (Expression × String)) := do
  word "GROUP"
  word "BY"
  let keys ← many1 (lexeme (groupKey nested))
  let keys ← keys.mapM keyVariable
  return (keys.map (·.1), keys.filterMap (·.2))

def havingClause (nested : Nested) : Parser Expression := do
  word "HAVING"
  let first ← constraint nested
  let rest ← many (constraint nested)
  return rest.foldl (fun left right => .apply "&&" [left, right]) first

def orderKey (nested : Nested) : Parser OrderKey :=
  (do
    word "ASC"
    return .ascending (← bracketed nested))
  <|> (do
    word "DESC"
    return .descending (← bracketed nested))
  <|> (.ascending <$> constraint nested)
  <|> ((fun name => .ascending (.variable name)) <$> variableName)

def orderClause (nested : Nested) : Parser (List OrderKey) := do
  word "ORDER"
  word "BY"
  many1 (lexeme (orderKey nested))

def solutionCount (name : String) : Parser Nat := do
  word name
  let count := Text.decimalValue (← digits)
  require (count < Nat.pow 2 64)
  return count

def sliceClause : Parser (Nat × Option Nat) :=
  (do
    let length ← lexeme (solutionCount "LIMIT")
    let start ← optional (solutionCount "OFFSET")
    return (start.getD 0, some length))
  <|> (do
    let start ← lexeme (solutionCount "OFFSET")
    return (start, ← optional (solutionCount "LIMIT")))

def takeAggregates : Parser (List Aggregate) := do
  match (← context).aggregates with
  | [] => return []
  | innermost :: others =>
    modifyContext fun context => { context with aggregates := others }
    return innermost

def completeQuery (nested : Nested) (selection : Selection) (pattern : GraphPattern) :
    Parser GraphPattern := do
  space
  let grouping ← lexeme (optional (groupClause nested))
  let having ← lexeme (optional (havingClause nested))
  let order ← lexeme (optional (orderClause nested))
  let slice ← lexeme (optional sliceClause)
  let values ← optional dataBlock
  let aggregates ← takeAggregates
  ofOption (selection.apply ⟨grouping, aggregates, having, order.getD [], slice, values⟩ pattern)

def selectedItem (nested : Nested) : Parser SelectedItem :=
  (.variable <$> variableName)
    <|> (do
      mark "("
      let value ← lexeme nested.expression
      let name ← asVariable
      symbol ")"
      return .expression value name)

def duplicates : Parser Duplicates :=
  (do word "DISTINCT"; return .removed) <|> (do word "REDUCED"; return .reducible)
    <|> pure .kept

/-- The head of a query that selects. It starts a list of aggregates of its own. -/
def selectClause (nested : Nested) : Parser Selection := do
  word "SELECT"
  modifyContext fun context => { context with aggregates := [] :: context.aggregates }
  let duplicates ← lexeme duplicates
  let projection ←
    (do symbol "*"; return .allVariables)
    <|> (.items <$> many1 (lexeme (selectedItem nested)))
  return ⟨projection, duplicates⟩

def subQuery (nested : Nested) : Parser GraphPattern := do
  let selection ← lexeme (selectClause nested)
  completeQuery nested selection (← whereClause nested)

/-- A group in braces. The labels of its blank nodes belong to its own blocks only. -/
def braced (body : Parser GraphPattern) : Parser GraphPattern := do
  mark "\x7b"
  closeLabels
  let pattern ← body
  closeLabels
  space
  symbol "\x7d"
  return pattern

def group (nested : Nested) : Parser GraphPattern :=
  braced (groupBody nested) <|> braced (subQuery nested)

def nestedTo : Nat → Nested
  | 0 => .nothing
  | depth + 1 =>
    let inner := nestedTo depth
    ⟨expression inner, group inner, path inner, describedNode inner⟩

end PlanGraph.Sparql
