import PlanGraph.Proofs.Graph.CycleBook

/-! Requests of cycle descriptions that may fail. Which requests are made, which of them are refused and
what is described in the end can be read off the requests alone. -/

set_option autoImplicit false
namespace PlanGraph

namespace Hierarchy

/-- The error of a request that is made after others. Only the first request of an identifier is refused,
and only if its first step leads to an unknown type. -/
def refusal? (hierarchy : Hierarchy) (asked : List CycleRequest) (request : CycleRequest) :
    Option UnknownType :=
  match asked.lookup request.1, request.2 with
  | none, first :: _ => if hierarchy.contains first.type then none else some ⟨first.type⟩
  | _, _ => none

/-- Those of some requests that are made in turn after others: all up to the first that is refused. -/
def made (hierarchy : Hierarchy) (asked : List CycleRequest) : List CycleRequest → List CycleRequest
  | [] => []
  | request :: rest =>
    match hierarchy.refusal? asked request with
    | some _ => [request]
    | none => request :: hierarchy.made (asked ++ [request]) rest

def Unrefused (hierarchy : Hierarchy) (asked : List CycleRequest) : List CycleRequest → Prop
  | [] => True
  | request :: rest =>
    hierarchy.refusal? asked request = none ∧ hierarchy.Unrefused (asked ++ [request]) rest

/-- Some requests, followed by those that are made of batches in turn. A refusal ends its batch only. -/
def asked (hierarchy : Hierarchy) (earlier : List CycleRequest) :
    List (List CycleRequest) → List CycleRequest
  | [] => earlier
  | batch :: rest => hierarchy.asked (earlier ++ hierarchy.made earlier batch) rest

theorem prefix_asked (hierarchy : Hierarchy) (earlier : List CycleRequest)
    (batches : List (List CycleRequest)) : earlier <+: hierarchy.asked earlier batches := by
  induction batches generalizing earlier with
  | nil => exact List.prefix_refl earlier
  | cons batch rest ih => exact (List.prefix_append _ _).trans (ih _)

variable {hierarchy : Hierarchy} {asked : List CycleRequest} {id : CycleId} {steps : List PathStep}
  {error : UnknownType}

theorem refusal?_eq_some : hierarchy.refusal? asked (id, steps) = some error ↔
    asked.lookup id = none ∧ ∃ first rest, steps = first :: rest ∧
      ¬hierarchy.contains first.type = true ∧ error = ⟨first.type⟩ := by
  unfold refusal?
  cases asked.lookup id with
  | some earlier => simp
  | none =>
    cases steps with
    | nil => simp
    | cons first rest =>
      cases known : hierarchy.contains first.type with
      | true => simp [known]
      | false => simpa [known] using eq_comm

theorem refusal?_eq_none : hierarchy.refusal? asked (id, steps) = none ↔
    (∃ earlier, asked.lookup id = some earlier) ∨ hierarchy.CanStart steps := by
  unfold refusal?
  cases asked.lookup id with
  | some earlier => simp
  | none =>
    cases steps with
    | nil => simp [CanStart]
    | cons first rest => simp [CanStart]

theorem made_append {requests : List CycleRequest} (unrefused : hierarchy.Unrefused asked requests)
    (rest : List CycleRequest) : hierarchy.made asked (requests ++ rest) =
      requests ++ hierarchy.made (asked ++ requests) rest := by
  induction requests generalizing asked with
  | nil => rw [List.nil_append, List.nil_append, List.append_nil]
  | cons request others ih =>
    rw [List.cons_append, made, unrefused.1]
    dsimp only
    rw [ih unrefused.2, List.append_assoc]
    rfl

theorem Unrefused.canStart {requests : List CycleRequest}
    (unrefused : hierarchy.Unrefused asked requests) (requested : requests.lookup id = some steps) :
    (∃ earlier, asked.lookup id = some earlier) ∨ hierarchy.CanStart steps := by
  induction requests generalizing asked with
  | nil => cases requested
  | cons request rest ih =>
    obtain ⟨other, others⟩ := request
    rw [List.lookup_cons] at requested
    by_cases same : id = other
    · subst same
      rw [beq_self_eq_true] at requested
      cases requested
      exact refusal?_eq_none.mp unrefused.1
    · rw [beq_false_of_ne same] at requested
      have known := ih unrefused.2 requested
      rwa [CycleBook.lookup_concat, if_neg same, Option.or_none] at known

end Hierarchy

namespace CycleBook
variable {hierarchy : Hierarchy} {book next : CycleBook} {asked : List CycleRequest} {id : CycleId}
  {steps : List PathStep}

theorem Records.lookup_eq_none_iff (records : Records hierarchy book asked) :
    asked.lookup id = none ↔ ¬id ∈ book.requested := by
  rw [records.requested, Option.eq_none_iff_forall_not_mem, not_exists]
  rfl

theorem Records.describe_answer (records : Records hierarchy book asked) (id : CycleId)
    (steps : List PathStep) : (book.describe hierarchy id steps).2 =
      match hierarchy.refusal? asked (id, steps) with
      | some error => .error error
      | none => .ok ((book.describe hierarchy id steps).1.described? id) := by
  have outcome := @describe_request hierarchy book id steps
  rcases (describe_spec records id steps).2 with ⟨possible, answer⟩ | ⟨⟨fresh, impossible⟩, _⟩
  · rw [answer, Hierarchy.refusal?_eq_none.mpr (possible.imp_left (records.requested id).mp)]
  · generalize book.describe hierarchy id steps = result at outcome
    cases outcome with
    | again requested => exact absurd requested fresh
    | nothing fresh empty => exact absurd (empty ▸ trivial) impossible
    | first fresh starts known => exact absurd (starts ▸ known) impossible
    | unknown fresh starts unknown =>
      rw [Hierarchy.refusal?_eq_some.mpr
        ⟨records.lookup_eq_none_iff.mpr fresh, _, _, starts, unknown, rfl⟩]

theorem find?_describe {other : CycleId} (differs : other ≠ id) :
    (book.describe hierarchy id steps).1.cycles.find? other = book.cycles.find? other := by
  have outcome := @describe_request hierarchy book id steps
  generalize book.describe hierarchy id steps = result at outcome
  cases outcome with
  | again requested => rfl
  | nothing fresh empty => rfl
  | first fresh starts known => exact OrderedMap.find?_insert.trans (if_neg differs)
  | unknown fresh starts unknown => rfl

/-- What requests in turn come to. Either none is refused and the identifiers of described cycles are
answered, or one is refused and the later ones are not made. -/
inductive InTurn (hierarchy : Hierarchy) (asked requests : List CycleRequest) :
    CycleBook × Except UnknownType (List CycleId) → Prop
  | met {next : CycleBook} (records : Records hierarchy next (asked ++ requests))
      (unrefused : hierarchy.Unrefused asked requests) :
      InTurn hierarchy asked requests
        (next, .ok ((requests.map Prod.fst).filter next.cycles.contains))
  | refused {next : CycleBook} {before after : List CycleRequest} {request : CycleRequest}
      {error : UnknownType} (split : requests = before ++ request :: after)
      (records : Records hierarchy next (asked ++ (before ++ [request])))
      (unrefused : hierarchy.Unrefused asked before)
      (refusal : hierarchy.refusal? (asked ++ before) request = some error) :
      InTurn hierarchy asked requests (next, .error error)

theorem Records.inTurn (records : Records hierarchy book asked) (requests : List CycleRequest) :
    InTurn hierarchy asked requests (book.requestAll hierarchy requests) := by
  induction requests generalizing book asked with
  | nil => exact .met (by rwa [List.append_nil]) trivial
  | cons request rest ih =>
    obtain ⟨id, steps⟩ := request
    have recorded := (describe_spec records id steps).1
    have answer := records.describe_answer id steps
    rw [requestAll]
    generalize book.describe hierarchy id steps = outcome at recorded answer
    obtain ⟨described, answered⟩ := outcome
    cases refusal : hierarchy.refusal? asked (id, steps) with
    | some error =>
      simp only [refusal] at answer
      subst answer
      have first : hierarchy.refusal? (asked ++ []) (id, steps) = some error := by rwa [List.append_nil]
      exact @InTurn.refused hierarchy asked _ _ [] rest _ _ rfl recorded trivial first
    | none =>
      simp only [refusal] at answer
      subst answer
      have others := ih recorded
      dsimp only
      generalize described.requestAll hierarchy rest = reached at others
      cases others with
      | @met last records unrefused =>
        -- The answer is read off the last book, which still knows of this request.
        have same : last.cycles.contains id = described.cycles.contains id := by
          rw [OrderedMap.contains, OrderedMap.contains,
            recorded.find?_append records (recorded.asked_of_mem (by simp : (id, steps) ∈ _))]
        have answers : (described.described? id).toList ++ (rest.map Prod.fst).filter last.cycles.contains =
            (((id, steps) :: rest).map Prod.fst).filter last.cycles.contains := by
          simp only [described?_toList, List.map_cons, List.filter_cons, List.filter_nil, same]
          split <;> rfl
        dsimp only
        rw [answers]
        exact .met (by rwa [List.append_assoc] at records) ⟨refusal, unrefused⟩
      | @refused last before after request error split records unrefused refused =>
        rw [List.append_assoc] at records refused
        exact @InTurn.refused hierarchy asked _ _ ((id, steps) :: before) after request error
          (by rw [split]; rfl) records ⟨refusal, unrefused⟩ refused

theorem requestAll_again {requests : List CycleRequest}
    (known : ∀ request ∈ requests, request.1 ∈ book.requested) : book.requestAll hierarchy requests =
      (book, .ok ((requests.map Prod.fst).filter book.cycles.contains)) := by
  induction requests with
  | nil => rfl
  | cons request rest ih =>
    obtain ⟨id, steps⟩ := request
    have first : book.describe hierarchy id steps = (book, .ok (book.described? id)) := by
      simp [describe, known (id, steps) List.mem_cons_self]
    rw [CycleBook.requestAll, first]
    dsimp only
    rw [ih fun request member => known request (List.mem_cons_of_mem _ member)]
    simp only [described?_toList, List.map_cons, List.filter_cons, List.filter_nil]
    split <;> rfl

theorem Records.requestAll (records : Records hierarchy book asked) (requests : List CycleRequest) :
    Records hierarchy (book.requestAll hierarchy requests).1
      (asked ++ hierarchy.made asked requests) := by
  have outcome := records.inTurn requests
  generalize book.requestAll hierarchy requests = result at outcome
  cases outcome with
  | met records unrefused =>
    have all := Hierarchy.made_append unrefused []
    rw [List.append_nil, Hierarchy.made, List.append_nil] at all
    rwa [all]
  | refused split records unrefused refusal =>
    rw [split, Hierarchy.made_append unrefused, Hierarchy.made, refusal]
    exact records

end CycleBook
end PlanGraph
