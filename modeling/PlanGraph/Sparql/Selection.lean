import PlanGraph.Sparql.Algebra

/-! Selections: what is taken from the solutions of a pattern, and the rules that variables follow
there. -/

set_option autoImplicit false
namespace PlanGraph.Sparql

inductive SelectedItem
  | variable (name : String)
  | expression (value : Expression) (name : String)

inductive Projection
  | everything
  | allVariables
  | items (items : List SelectedItem)

inductive Duplicates
  | kept
  | removed
  | reducible
deriving DecidableEq, Repr

structure Selection where
  projection : Projection
  duplicates : Duplicates

/-- The clauses after a pattern, and the aggregates found in the query. A grouping consists of the
variables to group by and the expressions that define some of them. -/
structure Modifiers where
  grouping : Option (List String × List (Expression × String))
  aggregates : List Aggregate
  having : Option Expression
  order : List OrderKey
  slice : Option (Nat × Option Nat)
  values : Option GraphPattern

/-- Aggregates without a grouping make one group of all solutions. -/
def Modifiers.effectiveGrouping (modifiers : Modifiers) :
    Option (List String × List (Expression × String)) :=
  match modifiers.grouping with
  | some grouping => some grouping
  | none => if modifiers.aggregates.isEmpty then none else some ([], [])

def Modifiers.solutions (modifiers : Modifiers) (pattern : GraphPattern) : GraphPattern :=
  let grouped :=
    match modifiers.effectiveGrouping with
    | none => pattern
    | some (names, definitions) =>
      .group
        (definitions.foldl (fun inner definition => .extend inner definition.2 definition.1) pattern)
        names modifiers.aggregates
  let filtered :=
    match modifiers.having with
    | none => grouped
    | some condition => .filter condition grouped
  match modifiers.values with
  | none => filtered
  | some values => filtered.joined values

/-- Selects items in turn. Of grouped solutions only visible variables can be selected; a new name
must not be visible and does not become so, and no name may be selected twice. -/
def selectItems (grouped : Bool) (visible : OrderedSet String) (pattern : GraphPattern)
    (selected : List String) : List SelectedItem → Option (GraphPattern × List String)
  | [] => some (pattern, selected.reverse)
  | .variable name :: rest =>
    if (grouped && !visible.contains name) || selected.contains name then none
    else selectItems grouped visible pattern (name :: selected) rest
  | .expression value name :: rest =>
    if (grouped && !value.isBoundBy visible) || visible.contains name || selected.contains name then
      none
    else selectItems grouped visible (.extend pattern name value) (name :: selected) rest

def Projection.apply (projection : Projection) (grouped : Bool) (pattern : GraphPattern) :
    Option (GraphPattern × Option (List String)) :=
  match projection with
  | .everything => some (pattern, none)
  | .allVariables =>
    if grouped then none else some (pattern, some (OrderedSet.ofList pattern.scope).elements)
  | .items chosen =>
    (selectItems grouped (.ofList pattern.scope) pattern [] chosen).map fun (pattern, names) =>
      (pattern, some names)

def Selection.apply (selection : Selection) (modifiers : Modifiers) (pattern : GraphPattern) :
    Option GraphPattern := do
  let grouped := modifiers.effectiveGrouping.isSome
  let (selected, names) ← selection.projection.apply grouped (modifiers.solutions pattern)
  let ordered := if modifiers.order.isEmpty then selected else .orderBy selected modifiers.order
  let projected :=
    match names with
    | none => ordered
    | some names => .project ordered names
  let distinct :=
    match selection.duplicates with
    | .kept => projected
    | .removed => .distinct projected
    | .reducible => .reduced projected
  return match modifiers.slice with
    | none => distinct
    | some (start, length) => .slice distinct start length

end PlanGraph.Sparql
