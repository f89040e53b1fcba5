import PlanGraph.Graph.Builder
import PlanGraph.Proofs.Graph.CycleRequests

/-! Calls for descriptions of cycles, whether they fail or not. The first request of an identifier
decides for ever: what is described, which requests fail, and what all of them answer. -/

set_option autoImplicit false
namespace PlanGraph

inductive CycleCall
  | description (request : CycleRequest)
  | planned (cycle : PlannedCycle)

def CycleCall.requests : CycleCall → List CycleRequest
  | .description request => [request]
  | .planned cycle => cycle.requests

namespace CycleBook

def answer (hierarchy : Hierarchy) (book : CycleBook) :
    CycleCall → CycleBook × Except UnknownType (List CycleId)
  | .description (id, steps) =>
    let (book, found) := book.describe hierarchy id steps
    (book, found.map Option.toList)
  | .planned cycle => book.describePlanned hierarchy cycle

section
variable {hierarchy : Hierarchy} {book : CycleBook} {asked : List CycleRequest} {id : CycleId}
  {steps : List PathStep}

theorem answer_eq_requestAll (call : CycleCall) :
    book.answer hierarchy call = book.requestAll hierarchy call.requests := by
  cases call with
  | description request =>
    obtain ⟨id, steps⟩ := request
    simp only [answer, CycleCall.requests, requestAll]
    rcases book.describe hierarchy id steps with ⟨next, error | found⟩
    · rfl
    · simp [Except.map]
  | planned cycle => exact describePlanned_eq_requestAll cycle

theorem Records.find?_eq_some_iff (records : Records hierarchy book asked) {cycle : Cycle} :
    book.cycles.find? id = some cycle ↔ ∃ first rest, asked.lookup id = some (first :: rest) ∧
      hierarchy.contains first.type = true ∧ hierarchy.subtypes first.type = .ok cycle.types ∧
      cycle.steps = first :: rest := by
  rw [records.cycles, Option.bind_eq_some_iff]
  constructor
  · rintro ⟨steps, requested, described⟩
    obtain ⟨first, rest, rfl, known, rfl⟩ := Hierarchy.cycle?_eq_some.mp described
    exact ⟨first, rest, requested, known, Hierarchy.subtypes_of_known known, rfl⟩
  · rintro ⟨first, rest, requested, known, types, steps⟩
    refine ⟨_, requested, Hierarchy.cycle?_eq_some.mpr ⟨first, rest, rfl, known, ?_⟩⟩
    rw [Hierarchy.subtypes_of_known known] at types
    cases cycle
    cases types
    cases steps
    rfl

/-- Nothing is described for an identifier whose first request had nothing to describe, and later
requests of it succeed with nothing. -/
theorem Records.stays_absent (records : Records hierarchy book asked) {first : List PathStep}
    (requested : asked.lookup id = some first) (nothing : hierarchy.cycle? first = none)
    (steps : List PathStep) :
    book.cycles.find? id = none ∧ (book.describe hierarchy id steps).2 = .ok none := by
  have later := (describe_spec records id steps).1
  have kept : (asked ++ [(id, steps)]).lookup id = some first := by
    rw [lookup_concat, requested, Option.some_or]
  have absent : (book.describe hierarchy id steps).1.cycles.contains id = false := by
    rw [OrderedMap.contains, later.cycles, kept, Option.bind_some, nothing, Option.isSome_none]
  refine ⟨by rw [records.cycles, requested, Option.bind_some, nothing], ?_⟩
  rw [records.describe_answer, Hierarchy.refusal?_eq_none.mpr (Or.inl ⟨first, requested⟩)]
  simp [described?, absent]

end
end CycleBook

namespace Builder

def call (hierarchy : Hierarchy) (builder : Builder) (call : CycleCall) : Builder :=
  { builder with book := (builder.book.answer hierarchy call).1 }

def callAll (hierarchy : Hierarchy) (builder : Builder) (calls : List CycleCall) : Builder :=
  calls.foldl (call hierarchy) builder

/-- The first request of every identifier has decided: about the cycles that are described, about the
answers to further requests, and about what stays undescribed whatever is called for later. -/
structure FirstDecides (hierarchy : Hierarchy) (builder : Builder) (asked : List CycleRequest) :
    Prop where
  described : ∀ id cycle, builder.graph.cycles.find? id = some cycle ↔
    ∃ first rest, asked.lookup id = some (first :: rest) ∧ hierarchy.contains first.type = true ∧
      hierarchy.subtypes first.type = .ok cycle.types ∧ cycle.steps = first :: rest
  fails : ∀ id steps error, (builder.book.describe hierarchy id steps).2 = .error error ↔
    asked.lookup id = none ∧ ∃ first rest, steps = first :: rest ∧
      ¬hierarchy.contains first.type = true ∧ error = ⟨first.type⟩
  answers : ∀ id steps found, (builder.book.describe hierarchy id steps).2 = .ok found →
    found = if (builder.book.describe hierarchy id steps).1.cycles.contains id then some id else none
  others : ∀ id steps other, other ≠ id →
    (builder.book.describe hierarchy id steps).1.cycles.find? other = builder.graph.cycles.find? other
  planned : ∀ cycle, builder.book.describePlanned hierarchy cycle =
    builder.book.requestAll hierarchy cycle.requests
  absent : ∀ id first, asked.lookup id = some first →
    (∀ step ∈ first.head?, ¬hierarchy.contains step.type = true) → ∀ later steps,
      (builder.callAll hierarchy later).graph.cycles.find? id = none ∧
        ((builder.callAll hierarchy later).book.describe hierarchy id steps).2 = .ok none

section
variable {hierarchy : Hierarchy} {builder : Builder} {earlier : List CycleRequest}

theorem records_call (records : builder.book.Records hierarchy earlier) (call : CycleCall) :
    (builder.call hierarchy call).book.Records hierarchy
      (earlier ++ hierarchy.made earlier call.requests) := by
  rw [Builder.call, CycleBook.answer_eq_requestAll]
  exact records.requestAll call.requests

theorem records_callAll (records : builder.book.Records hierarchy earlier) (calls : List CycleCall) :
    (builder.callAll hierarchy calls).book.Records hierarchy
      (hierarchy.asked earlier (calls.map CycleCall.requests)) := by
  induction calls generalizing builder earlier with
  | nil => exact records
  | cons first rest ih => exact ih (records_call records first)

theorem graph_callAll (calls : List CycleCall) : (builder.callAll hierarchy calls).graph =
    { builder.graph with cycles := (builder.callAll hierarchy calls).graph.cycles } := by
  induction calls generalizing builder with
  | nil => rfl
  | cons first rest ih => exact ih

theorem firstDecides (records : builder.book.Records hierarchy earlier) :
    builder.FirstDecides hierarchy earlier where
  described := fun _ _ => records.find?_eq_some_iff
  fails := fun id steps error => by
    rw [← Hierarchy.refusal?_eq_some, records.describe_answer]
    cases hierarchy.refusal? earlier (id, steps) with
    | some other => simp
    | none => simp
  answers := fun id steps found succeeds => by
    rw [records.describe_answer] at succeeds
    cases refusal : hierarchy.refusal? earlier (id, steps) with
    | some error => simp [refusal] at succeeds
    | none =>
      simp only [refusal] at succeeds
      exact (Except.ok.inj succeeds).symm
  others := fun _ _ _ => CycleBook.find?_describe
  planned := fun _ => CycleBook.describePlanned_eq_requestAll _
  absent := fun id first requested unable later steps => by
    have nothing : hierarchy.cycle? first = none := by
      cases first with
      | nil => rfl
      | cons step rest => exact if_neg (unable step rfl)
    -- Later requests come after the first one, which still decides.
    have recorded := records_callAll records later
    obtain ⟨more, same⟩ := hierarchy.prefix_asked earlier (later.map CycleCall.requests)
    rw [← same] at recorded
    refine recorded.stays_absent ?_ nothing steps
    rw [List.lookup_append, requested, Option.some_or]

end

/-- Whatever calls are made for an empty graph, the first request of each identifier decides for ever,
and the calls change nothing of the graph but the descriptions. -/
theorem first_request_decides (prefixes : Prefixes) (hierarchy : Hierarchy) (calls : List CycleCall) :
    ((start prefixes).callAll hierarchy calls).FirstDecides hierarchy
      (hierarchy.asked [] (calls.map CycleCall.requests)) ∧
    ((start prefixes).callAll hierarchy calls).graph =
      { (start prefixes).graph with
        cycles := ((start prefixes).callAll hierarchy calls).graph.cycles } :=
  ⟨firstDecides (@records_callAll hierarchy (start prefixes) [] (CycleBook.records_empty hierarchy) calls),
    graph_callAll calls⟩

/-- A refused request decides as well: its reverse is not asked for then, only later, but the cycle
itself stays undescribed. -/
example : ((start ∅).callAll (Hierarchy.empty.addType "Person")
    [.planned ⟨"1", [⟨"built", "Robot"⟩, ⟨"knows", "Person"⟩]⟩,
      .planned ⟨"1", [⟨"knows", "Person"⟩, ⟨"knows", "Person"⟩]⟩]).graph.cycles.keys = .ofList ["1r"] := by
  decide

end Builder
end PlanGraph
