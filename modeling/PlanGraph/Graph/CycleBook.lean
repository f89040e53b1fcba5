import PlanGraph.Hierarchy
import PlanGraph.OrderedMap
import PlanGraph.Graph.Forest

/-! The book of cycle descriptions. The first request of an identifier decides for ever whether the
cycle is described, and how. -/

set_option autoImplicit false
namespace PlanGraph

/-- A described cycle: the subtypes of the type of its first step, and all its steps. -/
structure Cycle where
  types : OrderedSet Iri
  steps : List PathStep
deriving DecidableEq

structure CycleBook where
  requested : OrderedSet CycleId
  cycles : OrderedMap CycleId Cycle
deriving DecidableEq

def reversedId (id : CycleId) : CycleId := id ++ "r"

namespace CycleBook

def empty : CycleBook := ⟨∅, ∅⟩

def described? (book : CycleBook) (id : CycleId) : Option CycleId :=
  if book.cycles.contains id then some id else none

/-- Requests a description. Cycles without steps stay undescribed, and so do those that start from
an unknown type, which is an error at the first request. -/
def describe (hierarchy : Hierarchy) (book : CycleBook) (id : CycleId) (steps : List PathStep) :
    CycleBook × Except UnknownType (Option CycleId) :=
  if book.requested.contains id then (book, .ok (book.described? id))
  else
    let book := { book with requested := book.requested.insert id }
    match steps with
    | [] => (book, .ok none)
    | first :: _ =>
      match hierarchy.subtypes first.type with
      | .error error => (book, .error error)
      | .ok types => ({ book with cycles := book.cycles.insert id ⟨types, steps⟩ }, .ok (some id))

def describePlanned (hierarchy : Hierarchy) (book : CycleBook) (cycle : PlannedCycle) :
    CycleBook × Except UnknownType (List CycleId) :=
  match book.describe hierarchy cycle.id cycle.steps with
  | (book, .error error) => (book, .error error)
  | (book, .ok forward) =>
    if cycle.steps.length ≤ 1 then (book, .ok forward.toList)
    else
      match book.describe hierarchy (reversedId cycle.id) cycle.steps.reverse with
      | (book, .error error) => (book, .error error)
      | (book, .ok backward) => (book, .ok (forward.toList ++ backward.toList))

def describeAll (hierarchy : Hierarchy) (book : CycleBook) :
    List PlannedCycle → CycleBook × Except UnknownType (List CycleId)
  | [] => (book, .ok [])
  | cycle :: rest =>
    match book.describePlanned hierarchy cycle with
    | (book, .error error) => (book, .error error)
    | (book, .ok ids) =>
      match book.describeAll hierarchy rest with
      | (book, .error error) => (book, .error error)
      | (book, .ok others) => (book, .ok (ids ++ others))

end CycleBook
end PlanGraph
