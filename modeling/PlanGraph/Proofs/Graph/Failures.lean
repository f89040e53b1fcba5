import PlanGraph.Graph.Compilation
import PlanGraph.Proofs.Graph.CycleBook
import PlanGraph.Proofs.Graph.Entries
import PlanGraph.Proofs.Graph.Finishing

/-! Failures. Building, propagation and finishing fail for types that the hierarchy does not know, and
for nothing else; the error names such a type. -/

set_option autoImplicit false
namespace PlanGraph

def FailsOnly {α ε : Type} (blamed : ε → Prop) (result : Except ε α) : Prop :=
  ∀ error, result = .error error → blamed error

section
variable {α β ε : Type} {blamed : ε → Prop} {result : Except ε α}

theorem failsOnly_ok (value : α) : FailsOnly blamed (.ok value) := by
  intro error fails
  cases fails

theorem failsOnly_error {error : ε} (justified : blamed error) :
    FailsOnly blamed (.error error : Except ε α) := by
  intro other fails
  cases fails
  exact justified

theorem FailsOnly.map (first : FailsOnly blamed result) (change : α → β) :
    FailsOnly blamed (result.map change) := by
  cases result with
  | error error => exact failsOnly_error (first error rfl)
  | ok value => exact failsOnly_ok (change value)

theorem FailsOnly.bind {next : α → Except ε β} (first : FailsOnly blamed result)
    (second : ∀ value, result = .ok value → FailsOnly blamed (next value)) :
    FailsOnly blamed (result >>= next) := by
  cases result with
  | error error => exact failsOnly_error (first error rfl)
  | ok value => exact second value rfl

theorem failsOnly_foldlM {step : β → α → Except ε β} {list : List α}
    (steps : ∀ state, ∀ value ∈ list, FailsOnly blamed (step state value)) (start : β) :
    FailsOnly blamed (list.foldlM step start) := by
  induction list generalizing start with
  | nil => exact failsOnly_ok start
  | cons first rest ih =>
    rw [List.foldlM_cons]
    refine (steps start first List.mem_cons_self).bind fun next _ => ?_
    exact ih (fun state value later => steps state value (List.mem_cons_of_mem _ later)) next

theorem failsOnly_mapM {compute : α → Except ε β} {list : List α}
    (each : ∀ value ∈ list, FailsOnly blamed (compute value)) : FailsOnly blamed (list.mapM compute) := by
  induction list with
  | nil => exact failsOnly_ok []
  | cons first rest ih =>
    rw [List.mapM_cons]
    refine (each first List.mem_cons_self).bind fun head _ => ?_
    refine (ih fun value later => each value (List.mem_cons_of_mem _ later)).bind fun tail _ => ?_
    exact failsOnly_ok (head :: tail)

end

def Hierarchy.Misses (hierarchy : Hierarchy) (error : UnknownType) : Prop :=
  ¬hierarchy.contains error.type = true

section
variable {hierarchy : Hierarchy}

theorem Hierarchy.subtypes_failsOnly (type : Iri) :
    FailsOnly hierarchy.Misses (hierarchy.subtypes type) := by
  by_cases known : hierarchy.contains type = true
  · rw [subtypes_of_known known]
    exact failsOnly_ok _
  · rw [subtypes_of_unknown known]
    exact failsOnly_error known

theorem Hierarchy.subtypesOfAll_failsOnly (types : List Iri) :
    FailsOnly hierarchy.Misses (hierarchy.subtypesOfAll types) :=
  failsOnly_foldlM (fun found type _ => (subtypes_failsOnly type).map found.union) ∅

/-! Building. -/

theorem CycleBook.describe_failsOnly (book : CycleBook) (id : CycleId) (steps : List PathStep) :
    FailsOnly hierarchy.Misses (book.describe hierarchy id steps).2 := by
  have outcome := @describe_request hierarchy book id steps
  generalize book.describe hierarchy id steps = result at outcome
  cases outcome with
  | again asked => exact failsOnly_ok _
  | nothing fresh empty => exact failsOnly_ok _
  | first fresh starts known => exact failsOnly_ok _
  | unknown fresh starts unknown => exact failsOnly_error unknown

theorem CycleBook.requestAll_failsOnly (book : CycleBook) (requests : List CycleRequest) :
    FailsOnly hierarchy.Misses (book.requestAll hierarchy requests).2 := by
  induction requests generalizing book with
  | nil => exact failsOnly_ok []
  | cons request rest ih =>
    obtain ⟨id, steps⟩ := request
    have first := @describe_failsOnly hierarchy book id steps
    rw [requestAll]
    generalize book.describe hierarchy id steps = outcome at first
    obtain ⟨next, error | found⟩ := outcome
    · exact failsOnly_error (first error rfl)
    · have later := ih next
      dsimp only
      generalize next.requestAll hierarchy rest = outcome at later
      obtain ⟨last, error | others⟩ := outcome
      · exact failsOnly_error (later error rfl)
      · exact failsOnly_ok _

theorem Builder.addEntry_misses {builder next : Builder} {entry : PlanEntry} {error : UnknownType}
    (fails : builder.addEntry hierarchy entry = (next, some error)) : hierarchy.Misses error := by
  have described := @CycleBook.requestAll_failsOnly hierarchy builder.book entry.cycleRequests
  rw [addEntry_eq] at fails
  generalize builder.book.requestAll hierarchy entry.cycleRequests = outcome at described fails
  obtain ⟨book, other | ids⟩ := outcome
  · cases fails
    exact described error rfl
  · cases fails

theorem Builder.addEntries_failsOnly (builder : Builder) (entries : List PlanEntry) :
    FailsOnly hierarchy.Misses (builder.addEntries hierarchy entries) := by
  induction entries generalizing builder with
  | nil => exact failsOnly_ok builder
  | cons entry rest ih =>
    rw [addEntries]
    rcases added : builder.addEntry hierarchy entry with ⟨next, _ | error⟩
    · exact ih next
    · exact failsOnly_error (addEntry_misses added)

theorem Plan.initialGraph_failsOnly (plan : Plan) :
    FailsOnly hierarchy.Misses (plan.initialGraph hierarchy) :=
  (Builder.addEntries_failsOnly _ plan.entries).map Builder.graph

/-! Propagation and finishing. -/

theorem Hierarchy.mostSpecific_failsOnly (types : OrderedSet Iri) :
    FailsOnly hierarchy.Misses (hierarchy.mostSpecific types) := by
  unfold mostSpecific
  split
  · next unknown found =>
    have missing := List.find?_some found
    refine failsOnly_error fun known => ?_
    have known : hierarchy.contains unknown = true := known
    simp [known] at missing
  · exact failsOnly_ok _

namespace Graph

theorem widenedTypes?_failsOnly (graph : Graph) (roots : Roots) (step : Step) :
    FailsOnly hierarchy.Misses (graph.widenedTypes? hierarchy roots step) := by
  unfold widenedTypes?
  split
  · exact ((Hierarchy.subtypesOfAll_failsOnly _).map _).map _
  · exact failsOnly_ok none

theorem visit_failsOnly (roots : Roots) (state : Widening) (id : StepId) :
    FailsOnly hierarchy.Misses (state.visit hierarchy roots id) := by
  unfold Widening.visit
  split
  · exact failsOnly_ok state
  · exact (widenedTypes?_failsOnly _ roots _).map _

theorem widen_failsOnly (graph : Graph) (roots : Roots) :
    FailsOnly hierarchy.Misses (graph.widen hierarchy roots) :=
  failsOnly_foldlM (fun state id _ => visit_failsOnly roots state id) _

theorem anchorTypes_failsOnly (graph : Graph) :
    FailsOnly hierarchy.Misses (graph.anchorTypes hierarchy) :=
  failsOnly_mapM fun _ _ => (Hierarchy.subtypesOfAll_failsOnly _).map _

theorem propagate_failsOnly (graph : Graph) (roots : Roots) :
    FailsOnly hierarchy.Misses (graph.propagate hierarchy roots) := by
  unfold propagate
  refine (widen_failsOnly graph roots).bind fun widening _ => ?_
  exact (anchorTypes_failsOnly widening.graph).bind fun anchors _ => failsOnly_ok _

theorem narrowTrees_misses {trees : List SearchTree} {error : UnknownType}
    (fails : (narrowTrees hierarchy trees).2 = some error) : hierarchy.Misses error := by
  induction trees with
  | nil => cases fails
  | cons tree rest ih =>
    unfold narrowTrees at fails
    cases outcome : hierarchy.mostSpecific tree.fromTypes with
    | error other =>
      rw [outcome] at fails
      cases fails
      exact Hierarchy.mostSpecific_failsOnly tree.fromTypes error outcome
    | ok types =>
      rw [outcome] at fails
      exact ih fails

theorem finish_misses {graph later : Graph} {error : UnknownType}
    (fails : graph.finish hierarchy = (later, some error)) : hierarchy.Misses error := by
  rcases finish_cases graph hierarchy with ⟨other, stopped, result⟩ | ⟨_, result⟩
  · rw [result] at fails
    cases fails
    exact narrowTrees_misses stopped
  · rw [result] at fails
    cases fails

end Graph

theorem Plan.compile_failsOnly (plan : Plan) (roots : Roots) :
    FailsOnly hierarchy.Misses (plan.compile hierarchy roots) := by
  unfold compile
  refine plan.initialGraph_failsOnly.bind fun initial _ => ?_
  refine (initial.propagate_failsOnly roots).bind fun propagated _ => ?_
  split
  · exact failsOnly_ok _
  · next finished => exact failsOnly_error (Graph.finish_misses finished)

end
end PlanGraph
