import PlanGraph.Graph.CycleBook
import PlanGraph.Proofs.Hierarchy.Closure

/-! The book of cycles as a function of the requests made. The first request of an identifier decides:
the book describes the cycle exactly if that request has steps and starts from a known type. -/

set_option autoImplicit false
namespace PlanGraph

abbrev CycleRequest := CycleId × List PathStep

def PlannedCycle.requests (cycle : PlannedCycle) : List CycleRequest :=
  (cycle.id, cycle.steps) ::
    if cycle.steps.length ≤ 1 then [] else [(reversedId cycle.id, cycle.steps.reverse)]

def Hierarchy.cycle? (hierarchy : Hierarchy) : List PathStep → Option Cycle
  | [] => none
  | first :: rest =>
    if hierarchy.contains first.type then some ⟨hierarchy.below first.type, first :: rest⟩ else none

def Hierarchy.CanStart (hierarchy : Hierarchy) : List PathStep → Prop
  | [] => True
  | first :: _ => hierarchy.contains first.type = true

def Hierarchy.CanMeet (hierarchy : Hierarchy) (requests : List CycleRequest) : Prop :=
  ∀ id steps, requests.lookup id = some steps → hierarchy.CanStart steps

theorem Hierarchy.cycle?_eq_some {hierarchy : Hierarchy} {steps : List PathStep} {cycle : Cycle} :
    hierarchy.cycle? steps = some cycle ↔ ∃ first rest, steps = first :: rest ∧
      hierarchy.contains first.type = true ∧ cycle = ⟨hierarchy.below first.type, steps⟩ := by
  cases steps with
  | nil => simp [cycle?]
  | cons first rest =>
    by_cases known : hierarchy.contains first.type = true
    · rw [cycle?, if_pos known]
      constructor
      · intro same
        cases same
        exact ⟨first, rest, rfl, known, rfl⟩
      · rintro ⟨_, _, same, _, rfl⟩
        cases same
        rfl
    · rw [cycle?, if_neg known]
      constructor
      · intro same
        cases same
      · rintro ⟨_, _, same, starts, _⟩
        cases same
        exact absurd starts known

namespace CycleBook

def requestAll (hierarchy : Hierarchy) (book : CycleBook) :
    List CycleRequest → CycleBook × Except UnknownType (List CycleId)
  | [] => (book, .ok [])
  | (id, steps) :: rest =>
    match book.describe hierarchy id steps with
    | (book, .error error) => (book, .error error)
    | (book, .ok found) =>
      match book.requestAll hierarchy rest with
      | (book, .error error) => (book, .error error)
      | (book, .ok others) => (book, .ok (found.toList ++ others))

section
variable {hierarchy : Hierarchy} {book next : CycleBook}

theorem requestAll_append (first second : List CycleRequest) :
    book.requestAll hierarchy (first ++ second) =
      match book.requestAll hierarchy first with
      | (book, .error error) => (book, .error error)
      | (book, .ok ids) =>
        match book.requestAll hierarchy second with
        | (book, .error error) => (book, .error error)
        | (book, .ok others) => (book, .ok (ids ++ others)) := by
  induction first generalizing book with
  | nil =>
    simp only [List.nil_append, requestAll]
    split <;> simp [*]
  | cons request rest ih =>
    obtain ⟨id, steps⟩ := request
    simp only [List.cons_append, requestAll, ih]
    rcases book.describe hierarchy id steps with ⟨described, error | found⟩
    · rfl
    · simp only []
      rcases described.requestAll hierarchy rest with ⟨reached, error | ids⟩
      · rfl
      · simp only []
        rcases reached.requestAll hierarchy second with ⟨last, error | others⟩
        · rfl
        · simp

theorem describePlanned_eq_requestAll (cycle : PlannedCycle) :
    book.describePlanned hierarchy cycle = book.requestAll hierarchy cycle.requests := by
  unfold describePlanned PlannedCycle.requests
  rw [requestAll]
  rcases book.describe hierarchy cycle.id cycle.steps with ⟨book, error | forward⟩
  · rfl
  · by_cases short : cycle.steps.length ≤ 1
    · simp [short, requestAll]
    · simp only [short, if_false, requestAll]
      rcases book.describe hierarchy (reversedId cycle.id) cycle.steps.reverse with
        ⟨book, error | backward⟩
      · rfl
      · simp

theorem describeAll_eq_requestAll (cycles : List PlannedCycle) :
    book.describeAll hierarchy cycles =
      book.requestAll hierarchy (cycles.flatMap PlannedCycle.requests) := by
  induction cycles generalizing book with
  | nil => rfl
  | cons cycle rest ih =>
    rw [List.flatMap_cons, requestAll_append, describeAll, describePlanned_eq_requestAll]
    rcases book.requestAll hierarchy cycle.requests with ⟨next, error | ids⟩
    · rfl
    · have later : next.describeAll hierarchy rest = _ := ih
      dsimp only
      generalize next.describeAll hierarchy rest = outcome at later ⊢
      subst later
      rfl

/-- The book is what the requests made so far have left. -/
structure Records (hierarchy : Hierarchy) (book : CycleBook) (requests : List CycleRequest) : Prop where
  requested : ∀ id, id ∈ book.requested ↔ ∃ steps, requests.lookup id = some steps
  cycles : ∀ id, book.cycles.find? id = (requests.lookup id).bind hierarchy.cycle?

theorem records_empty (hierarchy : Hierarchy) : Records hierarchy empty [] :=
  ⟨fun id => by simp [empty], fun id => rfl⟩

theorem lookup_concat {requests : List CycleRequest} {id other : CycleId} {steps : List PathStep} :
    (requests ++ [(id, steps)]).lookup other =
      (requests.lookup other).or (if other = id then some steps else none) := by
  rw [List.lookup_append, List.lookup_cons]
  by_cases same : other = id
  · simp [same]
  · simp [same, beq_false_of_ne same]

theorem Records.asked_of_mem {requests : List CycleRequest} (records : Records hierarchy book requests)
    {request : CycleRequest} (member : request ∈ requests) : request.1 ∈ book.requested :=
  (records.requested _).mpr
    (Option.isSome_iff_exists.mp (List.lookup_isSome_iff.mpr ⟨request, member, by simp⟩))

theorem Records.again {requests : List CycleRequest} (records : Records hierarchy book requests)
    {id : CycleId} (asked : id ∈ book.requested) (steps : List PathStep) :
    Records hierarchy book (requests ++ [(id, steps)]) := by
  obtain ⟨before, found⟩ := (records.requested id).mp asked
  -- The identifier was requested before, and its first request decides.
  have same : ∀ other, (requests ++ [(id, steps)]).lookup other = requests.lookup other := by
    intro other
    rw [lookup_concat]
    by_cases equal : other = id
    · simp [equal, found]
    · simp [equal]
  exact ⟨fun other => by rw [same, records.requested], fun other => by rw [same, records.cycles]⟩

theorem Records.first {requests : List CycleRequest} (records : Records hierarchy book requests)
    {id : CycleId} (fresh : ¬id ∈ book.requested) (steps : List PathStep)
    {cycles : OrderedMap CycleId Cycle}
    (described : ∀ other, cycles.find? other =
      if other = id then hierarchy.cycle? steps else book.cycles.find? other) :
    Records hierarchy ⟨book.requested.insert id, cycles⟩ (requests ++ [(id, steps)]) := by
  have absent : requests.lookup id = none := by
    cases found : requests.lookup id with
    | none => rfl
    | some before => exact absurd ((records.requested id).mpr ⟨before, found⟩) fresh
  refine ⟨fun other => ?_, fun other => ?_⟩
  · rw [lookup_concat, OrderedSet.mem_insert, records.requested]
    by_cases same : other = id
    · simp [same, absent]
    · simp [same]
  · rw [described, lookup_concat]
    by_cases same : other = id
    · simp [same, absent]
    · simp [same, records.cycles]

theorem Records.not_described {requests : List CycleRequest} (records : Records hierarchy book requests)
    {id : CycleId} (fresh : ¬id ∈ book.requested) : book.cycles.find? id = none := by
  rw [records.cycles]
  cases found : requests.lookup id with
  | none => rfl
  | some before => exact absurd ((records.requested id).mpr ⟨before, found⟩) fresh

/-- What a request can come to. Only a first request does anything, and only one that starts from a
known type describes a cycle. -/
inductive Request (hierarchy : Hierarchy) (book : CycleBook) (id : CycleId) (steps : List PathStep) :
    CycleBook × Except UnknownType (Option CycleId) → Prop
  | again (asked : id ∈ book.requested) :
      Request hierarchy book id steps (book, .ok (book.described? id))
  | nothing (fresh : ¬id ∈ book.requested) (empty : steps = []) :
      Request hierarchy book id steps (⟨book.requested.insert id, book.cycles⟩, .ok none)
  | first {start : PathStep} {rest : List PathStep} (fresh : ¬id ∈ book.requested)
      (starts : steps = start :: rest) (known : hierarchy.contains start.type = true) :
      Request hierarchy book id steps
        (⟨book.requested.insert id, book.cycles.insert id ⟨hierarchy.below start.type, steps⟩⟩,
          .ok (some id))
  | unknown {start : PathStep} {rest : List PathStep} (fresh : ¬id ∈ book.requested)
      (starts : steps = start :: rest) (unknown : ¬hierarchy.contains start.type = true) :
      Request hierarchy book id steps
        (⟨book.requested.insert id, book.cycles⟩, .error ⟨start.type⟩)

theorem describe_request (id : CycleId) (steps : List PathStep) :
    Request hierarchy book id steps (book.describe hierarchy id steps) := by
  by_cases asked : id ∈ book.requested
  · have same : book.describe hierarchy id steps = (book, .ok (book.described? id)) := by
      simp [describe, asked]
    exact same ▸ .again asked
  · have unasked : book.requested.contains id = false := by simpa [OrderedSet.contains] using asked
    cases steps with
    | nil =>
      have result : book.describe hierarchy id [] =
          (⟨book.requested.insert id, book.cycles⟩, .ok none) := by
        simp [describe, unasked]
      exact result ▸ .nothing asked rfl
    | cons start rest =>
      by_cases known : hierarchy.contains start.type = true
      · have result : book.describe hierarchy id (start :: rest) =
            (⟨book.requested.insert id,
                book.cycles.insert id ⟨hierarchy.below start.type, start :: rest⟩⟩, .ok (some id)) := by
          simp [describe, unasked, Hierarchy.subtypes_of_known known]
        exact result ▸ .first asked rfl known
      · have result : book.describe hierarchy id (start :: rest) =
            (⟨book.requested.insert id, book.cycles⟩, .error ⟨start.type⟩) := by
          simp [describe, unasked, Hierarchy.subtypes_of_unknown known]
        exact result ▸ .unknown asked rfl known

/-- What one request does: the book records it, it fails only as a first request that cannot start, and
it answers with the identifier if the cycle is described then. -/
theorem describe_spec {requests : List CycleRequest} (records : Records hierarchy book requests)
    (id : CycleId) (steps : List PathStep) :
    Records hierarchy (book.describe hierarchy id steps).1 (requests ++ [(id, steps)]) ∧
      ((id ∈ book.requested ∨ hierarchy.CanStart steps) ∧
          (book.describe hierarchy id steps).2 =
            .ok ((book.describe hierarchy id steps).1.described? id) ∨
        (¬id ∈ book.requested ∧ ¬hierarchy.CanStart steps) ∧
          ∃ error, (book.describe hierarchy id steps).2 = .error error) := by
  have outcome := @describe_request hierarchy book id steps
  -- From here on the request is known only by what `Request` says of it.
  generalize book.describe hierarchy id steps = result at outcome
  cases outcome with
  | again asked => exact ⟨records.again asked steps, Or.inl ⟨Or.inl asked, rfl⟩⟩
  | nothing fresh empty =>
    subst empty
    have missing := records.not_described fresh
    refine ⟨records.first fresh [] fun other => ?_, Or.inl ⟨Or.inr trivial, ?_⟩⟩
    · by_cases same : other = id
      · simp [same, missing, Hierarchy.cycle?]
      · simp [same]
    · simp [described?, OrderedMap.contains, missing]
  | first fresh starts known =>
    subst starts
    refine ⟨records.first fresh _ fun other => ?_, Or.inl ⟨Or.inr known, ?_⟩⟩
    · simp [Hierarchy.cycle?, known]
    · simp [described?, OrderedMap.contains]
  | unknown fresh starts unknown =>
    subst starts
    have missing := records.not_described fresh
    refine ⟨records.first fresh _ fun other => ?_, Or.inr ⟨⟨fresh, unknown⟩, _, rfl⟩⟩
    by_cases same : other = id
    · simp [same, missing, Hierarchy.cycle?, unknown]
    · simp [same]

theorem Records.canMeet_concat {requests : List CycleRequest}
    (records : Records hierarchy book requests) (met : hierarchy.CanMeet requests) {id : CycleId}
    {steps : List PathStep} (possible : id ∈ book.requested ∨ hierarchy.CanStart steps) :
    hierarchy.CanMeet (requests ++ [(id, steps)]) := by
  intro other others found
  rw [lookup_concat] at found
  cases before : requests.lookup other with
  | some earlier =>
    rw [before, Option.some_or, Option.some.injEq] at found
    exact found ▸ met other earlier before
  | none =>
    rw [before, Option.none_or] at found
    split at found
    · next same =>
      cases found
      -- Nothing was found before, so this is the first request of the identifier.
      refine possible.resolve_left fun asked => ?_
      obtain ⟨earlier, known⟩ := (records.requested id).mp asked
      rw [same, known] at before
      cases before
    · cases found

theorem Records.cannotMeet {requests : List CycleRequest}
    (records : Records hierarchy book requests) {id : CycleId} (fresh : ¬id ∈ book.requested)
    {steps : List PathStep} (impossible : ¬hierarchy.CanStart steps) (rest : List CycleRequest) :
    ¬hierarchy.CanMeet (requests ++ (id, steps) :: rest) := by
  intro met
  refine impossible (met id steps ?_)
  cases before : requests.lookup id with
  | some earlier => exact absurd ((records.requested id).mpr ⟨earlier, before⟩) fresh
  | none => rw [List.lookup_append, before, Option.none_or, List.lookup_cons, beq_self_eq_true]

theorem Records.find?_append {requests more : List CycleRequest}
    (records : Records hierarchy book requests) (later : Records hierarchy next (requests ++ more))
    {id : CycleId} (asked : id ∈ book.requested) : next.cycles.find? id = book.cycles.find? id := by
  obtain ⟨steps, found⟩ := (records.requested id).mp asked
  rw [records.cycles, later.cycles, List.lookup_append, found, Option.some_or]

theorem described?_toList (id : CycleId) :
    (book.described? id).toList = [id].filter book.cycles.contains := by
  unfold described?
  cases described : book.cycles.contains id with
  | true => simp [described]
  | false => simp [described]

/-- Requests succeed exactly if all that are the first of their identifier can be met; the answer then
lists the described identifiers. -/
theorem requestAll_spec {requests : List CycleRequest} (records : Records hierarchy book requests)
    (met : hierarchy.CanMeet requests) (more : List CycleRequest) :
    (hierarchy.CanMeet (requests ++ more) ∧ ∃ next, Records hierarchy next (requests ++ more) ∧
      book.requestAll hierarchy more =
        (next, .ok ((more.map Prod.fst).filter next.cycles.contains))) ∨
    (¬hierarchy.CanMeet (requests ++ more) ∧ ∃ next error,
      book.requestAll hierarchy more = (next, .error error)) := by
  induction more generalizing book requests with
  | nil => exact Or.inl ⟨by rwa [List.append_nil], book, by rwa [List.append_nil], rfl⟩
  | cons request rest ih =>
    obtain ⟨id, steps⟩ := request
    have grouped : requests ++ (id, steps) :: rest = requests ++ [(id, steps)] ++ rest := by simp
    have step := describe_spec records id steps
    rw [requestAll]
    generalize book.describe hierarchy id steps = outcome at step
    obtain ⟨described, answer⟩ := outcome
    dsimp only at step
    obtain ⟨recorded, ⟨possible, rfl⟩ | ⟨⟨fresh, impossible⟩, error, rfl⟩⟩ := step
    · rcases ih recorded (records.canMeet_concat met possible) with
        ⟨reached, next, later, result⟩ | ⟨unreached, next, error, result⟩
      · refine Or.inl ⟨grouped ▸ reached, next, grouped ▸ later, ?_⟩
        -- The answer is read off the last book, which still knows of this request.
        have same : next.cycles.contains id = described.cycles.contains id := by
          rw [OrderedMap.contains, OrderedMap.contains,
            recorded.find?_append later (recorded.asked_of_mem (by simp : (id, steps) ∈ _))]
        simp only [result, described?_toList, List.map_cons, List.filter_cons, same, List.filter_nil]
        split <;> rfl
      · exact Or.inr ⟨grouped ▸ unreached, next, error, by simp only [result]⟩
    · exact Or.inr ⟨records.cannotMeet fresh impossible rest, described, error, rfl⟩

/-! Requests that may fail. -/

/-- Whether requests fail or not, no description is lost, and what the answer lists is described. -/
structure Answers (book : CycleBook) (outcome : CycleBook × Except UnknownType (List CycleId)) :
    Prop where
  kept : ∀ id, book.cycles.contains id = true → outcome.1.cycles.contains id = true
  described : ∀ ids, outcome.2 = .ok ids → ∀ id ∈ ids, outcome.1.cycles.contains id = true

theorem Request.answers {id : CycleId} {steps : List PathStep}
    {outcome : CycleBook × Except UnknownType (Option CycleId)}
    (request : Request hierarchy book id steps outcome) :
    Answers book (outcome.1, outcome.2.map Option.toList) := by
  cases request with
  | again asked =>
    refine ⟨fun _ known => known, fun ids answer found member => ?_⟩
    cases answer
    rw [described?_toList] at member
    exact (List.mem_filter.mp member).2
  | nothing fresh empty =>
    refine ⟨fun _ known => known, fun ids answer found member => ?_⟩
    cases answer
    cases member
  | first fresh starts known =>
    refine ⟨fun other described => ?_, fun ids answer found member => ?_⟩
    · by_cases same : other = id
      · simp [OrderedMap.contains, same]
      · simpa [OrderedMap.contains, same] using described
    · cases answer
      simp [OrderedMap.contains, List.mem_singleton.mp member]
  | unknown fresh starts unknown =>
    refine ⟨fun _ known => known, fun ids answer found member => ?_⟩
    cases answer

theorem requestAll_answers (requests : List CycleRequest) :
    Answers book (book.requestAll hierarchy requests) := by
  induction requests generalizing book with
  | nil =>
    refine ⟨fun _ known => known, fun ids answer id member => ?_⟩
    cases answer
    cases member
  | cons request rest ih =>
    obtain ⟨id, steps⟩ := request
    have first := (@describe_request hierarchy book id steps).answers
    rw [requestAll]
    generalize book.describe hierarchy id steps = outcome at first
    obtain ⟨next, error | found⟩ := outcome
    · exact ⟨first.kept, fun ids answer => nomatch answer⟩
    · have later : Answers next (next.requestAll hierarchy rest) := ih
      have kept (other : CycleId) (known : book.cycles.contains other = true) :=
        later.kept other (first.kept other known)
      dsimp only
      generalize next.requestAll hierarchy rest = reached at later kept
      obtain ⟨last, error | others⟩ := reached
      · exact ⟨kept, fun ids answer => nomatch answer⟩
      · refine ⟨kept, fun ids answer other member => ?_⟩
        cases answer
        -- What the first request answers is described from then on.
        rcases List.mem_append.mp member with early | late
        · exact later.kept other (first.described _ rfl other early)
        · exact later.described others rfl other late

end
end CycleBook
end PlanGraph
