import PlanGraph.OrderedMap
import PlanGraph.Sparql.Algebra

/-! Parsers for queries. A parser that fails leaves the input where it was, but it keeps what it has
learned: labels that were read and aggregates that were found count even if the construct they stand
in is then read in another way. -/

set_option autoImplicit false
namespace PlanGraph.Sparql

/-- What a query has declared and used so far. Every query that selects has its own list of
aggregates, the innermost first. -/
structure Context where
  base : Option Iri
  prefixes : OrderedMap String Iri
  usedLabels : OrderedSet String
  currentLabels : OrderedSet String
  aggregates : List (List Aggregate)
  fresh : Nat

def Context.start : Context := ⟨none, ∅, ∅, ∅, [], 0⟩

abbrev Parser := StateT (List Char) (OptionT (StateM Context))

def context : Parser Context := getThe Context

def modifyContext (change : Context → Context) : Parser Unit := modifyThe Context change

def fail {α : Type} : Parser α := failure

def require (condition : Bool) : Parser Unit := if condition then pure () else fail

def ofOption {α : Type} : Option α → Parser α
  | some value => pure value
  | none => fail

def optional {α : Type} (parser : Parser α) : Parser (Option α) := (some <$> parser) <|> pure none

def manyUpTo {α : Type} (parser : Parser α) : Nat → Parser (List α)
  | 0 => pure []
  | count + 1 =>
    (do
      let first ← parser
      let rest ← manyUpTo parser count
      return first :: rest) <|> pure []

/-- As many items as there are. Every item takes a character, so the input bounds their number. -/
def many {α : Type} (parser : Parser α) : Parser (List α) := do
  manyUpTo parser (← get).length

def many1 {α : Type} (parser : Parser α) : Parser (List α) := do
  let first ← parser
  let rest ← many parser
  return first :: rest

def separatedBy {α : Type} (separator : Parser Unit) (parser : Parser α) : Parser (List α) := do
  let first ← parser
  let rest ← many (do separator; parser)
  return first :: rest

def satisfy (kind : Char → Bool) : Parser Char := do
  match ← get with
  | [] => fail
  | char :: rest =>
    require (kind char)
    set rest
    return char

def takeAll (kind : Char → Bool) : Parser (List Char) := do
  let chars ← get
  set (chars.dropWhile kind)
  return chars.takeWhile kind

def takeSome (kind : Char → Bool) : Parser (List Char) := do
  let chars ← takeAll kind
  require !chars.isEmpty
  return chars

def cutInput {α : Type} (cut : List Char → Option (α × List Char)) : Parser α := do
  let (value, rest) ← ofOption (cut (← get))
  set rest
  return value

def symbol (text : String) : Parser Unit :=
  cutInput fun chars => (Text.after? text.toList chars).map ((), ·)

/-- Takes a word in any mixture of capitals and small letters. What follows may touch it. -/
def keyword (word : String) : Parser Unit :=
  cutInput fun chars =>
    (Text.after? (word.toList.map Char.toLower)
      ((chars.take word.length).map Char.toLower ++ chars.drop word.length)).map ((), ·)

def freshVariable : Parser String := do
  let number := (← context).fresh
  modifyContext fun context => { context with fresh := context.fresh + 1 }
  return "." ++ toString number

def freshNode : Parser PatternTerm := do return .fixed (.blank (← freshVariable))

end PlanGraph.Sparql
