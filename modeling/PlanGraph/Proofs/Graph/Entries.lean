import PlanGraph.Graph.Builder
import PlanGraph.Proofs.Graph.CycleBook

/-! Adding an entry. Its paths are gone through one by one, and its cycles are described on the way, but
no path is included before they are. So an entry either fails without including any path, or it includes
all its paths through the same cycles. -/

set_option autoImplicit false
namespace PlanGraph

def PlanEntry.plantAll (entry : PlanEntry) (pattern : PatternId) (cycles : List CycleId)
    (nursery : Nursery) : Nursery :=
  entry.includedPaths.foldl (fun nursery found =>
    nursery.includePath pattern entry.pattern cycles found.1 found.2) nursery

/-- An entry without a path to include requests no cycle. -/
def PlanEntry.cycleRequests (entry : PlanEntry) : List CycleRequest :=
  if entry.includedPaths = [] then [] else entry.cycles.flatMap PlannedCycle.requests

def PlanEntry.withPaths (entry : PlanEntry) (paths : List PlannedPath) : PlanEntry :=
  { entry with paths }

namespace PlanEntry
variable {entry : PlanEntry} {path : PlannedPath} {rest : List PlannedPath}

theorem includedPaths_skipped (skipped : path.startingType? entry.pattern = none) :
    (entry.withPaths (path :: rest)).includedPaths = (entry.withPaths rest).includedPaths := by
  unfold includedPaths
  exact List.filterMap_cons_none (by simp [withPaths, skipped])

theorem includedPaths_starting {type : Iri} (starts : path.startingType? entry.pattern = some type) :
    (entry.withPaths (path :: rest)).includedPaths =
      (path, type) :: (entry.withPaths rest).includedPaths := by
  unfold includedPaths
  exact List.filterMap_cons_some (by simp [withPaths, starts])

theorem cycleRequests_of_included (included : entry.includedPaths ≠ []) :
    entry.cycleRequests = entry.cycles.flatMap PlannedCycle.requests :=
  if_neg included

end PlanEntry

namespace Builder
variable {hierarchy : Hierarchy} {builder : Builder} {entry : PlanEntry} {pattern : PatternId}

theorem addPaths_described (cycles : List CycleId) (paths : List PlannedPath) :
    builder.addPaths hierarchy entry pattern (some cycles) paths =
      ({ builder with nursery := (entry.withPaths paths).plantAll pattern cycles builder.nursery }, none) := by
  induction paths generalizing builder with
  | nil => rfl
  | cons path rest ih =>
    rw [addPaths, PlanEntry.plantAll]
    cases starts : path.startingType? entry.pattern with
    | none =>
      rw [PlanEntry.includedPaths_skipped starts]
      exact ih
    | some type =>
      rw [PlanEntry.includedPaths_starting starts]
      exact ih

/-- As long as the cycles are not described, only paths have been met that are skipped. -/
theorem addPaths_undescribed (paths : List PlannedPath) :
    builder.addPaths hierarchy entry pattern none paths =
      match (entry.withPaths paths).includedPaths with
      | [] => (builder, none)
      | _ :: _ =>
        match builder.book.describeAll hierarchy entry.cycles with
        | (book, .error error) => ({ builder with book }, some error)
        | (book, .ok cycles) =>
          ({ builder with
              book
              nursery := (entry.withPaths paths).plantAll pattern cycles builder.nursery }, none) := by
  induction paths with
  | nil => rfl
  | cons path rest ih =>
    rw [addPaths]
    unfold PlanEntry.plantAll at ih ⊢
    cases starts : path.startingType? entry.pattern with
    | none =>
      rw [PlanEntry.includedPaths_skipped starts]
      exact ih
    | some type =>
      rw [PlanEntry.includedPaths_starting starts, cyclesOf]
      rcases builder.book.describeAll hierarchy entry.cycles with ⟨book, error | cycles⟩
      · rfl
      · exact addPaths_described cycles rest

/-- What an entry comes to. Its space is opened, then its cycles are requested, and when that fails, no
path is included. -/
theorem addEntry_eq (hierarchy : Hierarchy) (builder : Builder) (entry : PlanEntry) :
    builder.addEntry hierarchy entry =
      match builder.book.requestAll hierarchy entry.cycleRequests with
      | (book, .error error) => ({ (builder.openSpace entry).1 with book }, some error)
      | (book, .ok cycles) =>
        ({ (builder.openSpace entry).1 with
            book
            nursery := entry.plantAll (builder.openSpace entry).2 cycles builder.nursery }, none) := by
  have walked : builder.addEntry hierarchy entry = _ := addPaths_undescribed entry.paths
  have whole : entry.withPaths entry.paths = entry := rfl
  rw [walked, whole, PlanEntry.cycleRequests]
  unfold PlanEntry.plantAll
  cases entry.includedPaths with
  | nil => rfl
  | cons first rest =>
    dsimp only
    rw [CycleBook.describeAll_eq_requestAll]
    rfl

end Builder
end PlanGraph
