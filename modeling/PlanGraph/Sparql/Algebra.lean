import PlanGraph.OrderedSet
import PlanGraph.Plan.Pattern

/-! The algebra of SPARQL queries: property paths, expressions and graph patterns, the variables in
their scope, and their triple patterns. -/

set_option autoImplicit false
namespace PlanGraph.Sparql
open Rdf (Term)

inductive Path
  | iri (name : Iri)
  | inverse (path : Path)
  | sequence (first second : Path)
  | alternative (first second : Path)
  | zeroOrMore (path : Path)
  | oneOrMore (path : Path)
  | zeroOrOne (path : Path)
  | noneOf (names : List Iri)
deriving DecidableEq, Repr, Inhabited

mutual

inductive Expression
  | constant (term : Term)
  | variable (name : String)
  | isBound (name : String)
  | apply (function : String) (arguments : List Expression)
  | coalesce (arguments : List Expression)
  | holds (pattern : GraphPattern)

inductive Aggregate
  | mk (result function : String) (distinct : Bool) (arguments : List Expression)
    (separator : Option String)

inductive OrderKey
  | ascending (key : Expression)
  | descending (key : Expression)

inductive GraphPattern
  | triples (patterns : List TriplePattern)
  | path (subject : PatternTerm) (path : Path) (object : PatternTerm)
  | join (left right : GraphPattern)
  | leftJoin (left right : GraphPattern) (condition : Option Expression)
  | union (left right : GraphPattern)
  | minus (left right : GraphPattern)
  | filter (condition : Expression) (inner : GraphPattern)
  | graph (name : Predicate) (inner : GraphPattern)
  | extend (inner : GraphPattern) (name : String) (value : Expression)
  | values (names : List String) (rows : List (List (Option Term)))
  | orderBy (inner : GraphPattern) (keys : List OrderKey)
  | project (inner : GraphPattern) (names : List String)
  | distinct (inner : GraphPattern)
  | reduced (inner : GraphPattern)
  | slice (inner : GraphPattern) (start : Nat) (length : Option Nat)
  | group (inner : GraphPattern) (names : List String) (aggregates : List Aggregate)
  | service (name : Predicate) (inner : GraphPattern) (silent : Bool)

end

instance : Inhabited GraphPattern := ⟨.triples []⟩
instance : Inhabited Expression := ⟨.variable ""⟩

def Aggregate.result : Aggregate → String
  | .mk name _ _ _ _ => name

mutual

/-- Tells whether the variables that an expression needs are among the visible ones. Tests for
bound variables, patterns and alternatives for unbound values need none. -/
def Expression.isBoundBy (visible : OrderedSet String) : Expression → Bool
  | .constant _ => true
  | .variable name => visible.contains name
  | .isBound _ => true
  | .apply _ arguments => allBoundBy visible arguments
  | .coalesce _ => true
  | .holds _ => true

def allBoundBy (visible : OrderedSet String) : List Expression → Bool
  | [] => true
  | first :: rest => first.isBoundBy visible && allBoundBy visible rest

end

def triplePatternVariables (pattern : TriplePattern) : List String :=
  pattern.subject.variable?.toList
    ++ (match pattern.predicate with
      | .variable name => [name]
      | .iri _ => [])
    ++ pattern.object.variable?.toList

def nameVariables : Predicate → List String
  | .variable name => [name]
  | .iri _ => []

namespace GraphPattern

def scope : GraphPattern → List String
  | .triples patterns => patterns.flatMap triplePatternVariables
  | .path subject _ object => subject.variable?.toList ++ object.variable?.toList
  | .join left right => left.scope ++ right.scope
  | .leftJoin left right _ => left.scope ++ right.scope
  | .union left right => left.scope ++ right.scope
  | .minus left _ => left.scope
  | .filter _ inner => inner.scope
  | .graph name inner => nameVariables name ++ inner.scope
  | .extend inner name _ => name :: inner.scope
  | .values names _ => names
  | .orderBy inner _ => inner.scope
  | .project _ names => names
  | .distinct inner => inner.scope
  | .reduced inner => inner.scope
  | .slice inner _ _ => inner.scope
  | .group _ names aggregates => names ++ aggregates.map Aggregate.result
  | .service _ inner _ => inner.scope

/-- The triple patterns of a pattern. Those in expressions and in property paths do not count. -/
def triplePatterns : GraphPattern → List TriplePattern
  | .triples patterns => patterns
  | .path _ _ _ => []
  | .join left right => left.triplePatterns ++ right.triplePatterns
  | .leftJoin left right _ => left.triplePatterns ++ right.triplePatterns
  | .union left right => left.triplePatterns ++ right.triplePatterns
  | .minus left right => left.triplePatterns ++ right.triplePatterns
  | .filter _ inner => inner.triplePatterns
  | .graph _ inner => inner.triplePatterns
  | .extend inner _ _ => inner.triplePatterns
  | .values _ _ => []
  | .orderBy inner _ => inner.triplePatterns
  | .project inner _ => inner.triplePatterns
  | .distinct inner => inner.triplePatterns
  | .reduced inner => inner.triplePatterns
  | .slice inner _ _ => inner.triplePatterns
  | .group inner _ _ => inner.triplePatterns
  | .service _ inner _ => inner.triplePatterns

/-- Joins two patterns; a pattern without triples adds nothing to a join. -/
def joined : GraphPattern → GraphPattern → GraphPattern
  | .triples [], right => right
  | left, .triples [] => left
  | left, right => .join left right

end GraphPattern
end PlanGraph.Sparql
