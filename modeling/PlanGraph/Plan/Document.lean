import PlanGraph.Json.Reader
import PlanGraph.Json.Record

/-! The JSON form of evaluation plans, before any term is read. -/

set_option autoImplicit false
namespace PlanGraph

namespace Document

structure Step where
  property : String
  type : String
deriving DecidableEq, Repr

structure Cycle where
  id : String
  steps : List Step
deriving DecidableEq, Repr

structure Path where
  steps : List Step
  seeds : List String
  check : Option Bool
deriving DecidableEq, Repr

structure Entry where
  context : String
  subject : String
  predicate : String
  object : String
  check : Option Bool
  cycles : List Cycle
  paths : List Path
deriving DecidableEq, Repr

end Document

structure Document where
  prefixes : List (String × String)
  entries : List Document.Entry
deriving DecidableEq, Repr

namespace Document
open Json Text

/-- The digits of an integer of 64 bits. Numbers are written without superfluous zeros, so these
are its decimal form; a minus before zero makes no integer. -/
def integerText? (digits : String) : Option String :=
  let fits :=
    match digits.toList with
    | '-' :: magnitude =>
      magnitude.all Char.isDigit && 0 < decimalValue magnitude && decimalValue magnitude ≤ Nat.pow 2 63
    | magnitude => magnitude.all Char.isDigit && decimalValue magnitude < Nat.pow 2 63
  if fits then some digits else none

def id? : Value → Option String
  | .string content => content
  | .number digits => integerText? digits
  | _ => none

def Step.ofValue? (value : Value) : Option Step :=
  match value.record? [⟨["property"], .required⟩, ⟨["type"], .required⟩] with
  | some [some property, some type] => do return ⟨← property.text?, ← type.text?⟩
  | _ => none

def Cycle.ofValue? (value : Value) : Option Cycle :=
  match value.record? [⟨["cycle", "id"], .required⟩, ⟨["steps"], .required⟩] with
  | some [some id, some steps] => do return ⟨← id? id, ← steps.listOf? Step.ofValue?⟩
  | _ => none

def check? (value : Option Value) : Option (Option Bool) :=
  orDefault none (Value.nullable? Value.bool?) value

def Path.ofValue? (value : Value) : Option Path :=
  match value.record? [⟨["steps"], .defaulted⟩, ⟨["seeds"], .defaulted⟩, ⟨["check"], .optional⟩] with
  | some [steps, seeds, check] => do
    return ⟨← orDefault [] (Value.listOf? Step.ofValue?) steps,
      ← orDefault [] (Value.listOf? Value.text?) seeds, ← check? check⟩
  | _ => none

def hints? (value : Value) : Option (Option Bool) :=
  match value.record? [⟨["check"], .optional⟩] with
  | some [check] => check? check
  | _ => none

def pattern? (value : Value) : Option (String × String × String) :=
  match value.listOf? Value.text? with
  | some [subject, predicate, object] => some (subject, predicate, object)
  | _ => none

def Entry.ofValue? (value : Value) : Option Entry :=
  match value.record?
    [⟨["context"], .required⟩, ⟨["pattern"], .required⟩, ⟨["hints"], .defaulted⟩,
      ⟨["cycles"], .defaulted⟩, ⟨["paths"], .defaulted⟩] with
  | some [some context, some pattern, hints, cycles, paths] => do
    let (subject, predicate, object) ← pattern? pattern
    return ⟨← id? context, subject, predicate, object, ← orDefault none hints? hints,
      ← orDefault [] (Value.listOf? Cycle.ofValue?) cycles,
      ← orDefault [] (Value.listOf? Path.ofValue?) paths⟩
  | _ => none

def ofValue? (value : Value) : Option Document :=
  match value.record? [⟨["prefixes"], .defaulted⟩, ⟨["entries", "plan"], .required⟩] with
  | some [prefixes, some entries] => do
    return ⟨← orDefault [] (Value.bindings? Value.text?) prefixes,
      ← entries.listOf? Entry.ofValue?⟩
  | _ => none

end Document
end PlanGraph
