import PlanGraph.Proofs.Graph.CycleRequests
import PlanGraph.Proofs.Graph.InitialGraph

/-! Building over entries that may fail. Whatever entries a builder is given, its patterns are those that
the entries request, and its forest took in paths of these patterns, through cycles that are described. -/

set_option autoImplicit false
namespace PlanGraph

def Builder.addAll (hierarchy : Hierarchy) (builder : Builder) (entries : List PlanEntry) : Builder :=
  entries.foldl (fun builder entry => (builder.addEntry hierarchy entry).1) builder

structure Inclusion.Backed (inclusion : Inclusion) (entries : List PlanEntry)
    (cycles : OrderedMap CycleId Cycle) : Prop where
  requested : inclusion.pattern ∈ entries.map PlanEntry.pattern
  described : ∀ id, id ∈ inclusion.cycles → cycles.contains id = true

theorem PlanEntry.backed_inclusionsThrough (entry : PlanEntry) {ids : List CycleId}
    {cycles : OrderedMap CycleId Cycle} (described : ∀ id ∈ ids, cycles.contains id = true)
    (given : List PlanEntry) : ∀ inclusion ∈ entry.inclusionsThrough ids,
      inclusion.Backed (given ++ [entry]) cycles := by
  intro inclusion member
  obtain ⟨found, _, rfl⟩ := List.mem_map.mp member
  exact ⟨by simp, fun id through => described id (OrderedSet.mem_ofList.mp through)⟩

namespace Builder

/-- What a builder has gathered from the entries it was given, with the inclusions it has taken in. -/
structure Gathers (builder : Builder) (given : List PlanEntry) (taken : List Inclusion) : Prop where
  registry : builder.registry = .ofRequests (patternRequests given)
  spaces : builder.spaces = given.map fun entry => ⟨entry.context, numberOf given entry.pattern⟩
  nursery : builder.nursery = .ofForest (.ofInclusions (numberOf given) taken)
  backed : ∀ inclusion ∈ taken, inclusion.Backed given builder.book.cycles

variable {hierarchy : Hierarchy} {builder : Builder} {given : List PlanEntry} {taken : List Inclusion}

theorem gathers_start (prefixes : Prefixes) : (start prefixes).Gathers [] [] where
  registry := rfl
  spaces := rfl
  nursery := rfl
  backed := fun _ member => nomatch member

theorem Gathers.orderly (gathers : builder.Gathers given taken) :
    builder.Orderly given (.ofInclusions (numberOf given) taken) :=
  ⟨gathers.registry, gathers.nursery, (Forest.madeOf_ofInclusions _ _).links⟩

theorem Gathers.taking (gathers : builder.Gathers given taken) (entry : PlanEntry) {book : CycleBook}
    (kept : ∀ id, builder.book.cycles.contains id = true → book.cycles.contains id = true)
    {more : List Inclusion} (backed : ∀ inclusion ∈ more, inclusion.Backed (given ++ [entry]) book.cycles) :
    (builder.taking given entry book more).Gathers (given ++ [entry]) (taken ++ more) where
  registry := rfl
  spaces := by
    rw [spaces_concat, ← gathers.spaces]
    rfl
  nursery := by
    rw [Builder.taking, gathers.nursery]
    exact congrArg Nursery.ofForest (ofInclusions_append entry
      (fun inclusion member => (gathers.backed inclusion member).requested) more)
  backed := fun inclusion member => by
    rcases List.mem_append.mp member with old | new
    · have before := gathers.backed inclusion old
      exact ⟨by simp [before.requested], fun id through => kept id (before.described id through)⟩
    · exact backed inclusion new

theorem Gathers.pattern?_eq (gathers : builder.Gathers given taken) (id : PatternId) :
    builder.graph.pattern? id = (requestedPatterns (patternRequests given))[id]? := by
  rw [← patterns_registered, List.getElem?_map, Graph.pattern?, Builder.graph, gathers.registry]
  rfl

/-- An entry is gathered whatever comes of it; inclusions are taken in only where its cycles could be
described. -/
theorem Gathers.addEntry (gathers : builder.Gathers given taken) (hierarchy : Hierarchy)
    (entry : PlanEntry) : ∃ more,
      (builder.addEntry hierarchy entry).1.Gathers (given ++ [entry]) (taken ++ more) := by
  have answers := @CycleBook.requestAll_answers hierarchy builder.book entry.cycleRequests
  rw [gathers.orderly.addEntry_eq]
  generalize builder.book.requestAll hierarchy entry.cycleRequests = outcome at answers
  obtain ⟨book, error | ids⟩ := outcome
  · have none (inclusion : Inclusion) (member : inclusion ∈ []) :
        inclusion.Backed (given ++ [entry]) book.cycles := nomatch member
    exact ⟨[], gathers.taking entry answers.kept none⟩
  · have backed := entry.backed_inclusionsThrough (answers.described ids rfl) given
    exact ⟨entry.inclusionsThrough ids, gathers.taking entry answers.kept backed⟩

theorem Gathers.addAll (gathers : builder.Gathers given taken) (hierarchy : Hierarchy)
    (entries : List PlanEntry) : ∃ more,
      (builder.addAll hierarchy entries).Gathers (given ++ entries) (taken ++ more) := by
  induction entries generalizing builder given taken with
  | nil => exact ⟨[], by simpa [addAll] using gathers⟩
  | cons entry rest ih =>
    obtain ⟨more, next⟩ := gathers.addEntry hierarchy entry
    obtain ⟨others, last⟩ := ih next
    exact ⟨more ++ others, by simpa [addAll] using last⟩

/-! The requests of entries. -/

theorem records_addEntry {asked : List CycleRequest} (records : builder.book.Records hierarchy asked)
    (entry : PlanEntry) : (builder.addEntry hierarchy entry).1.book.Records hierarchy
      (asked ++ hierarchy.made asked entry.cycleRequests) := by
  have next := records.requestAll entry.cycleRequests
  rw [addEntry_eq]
  generalize builder.book.requestAll hierarchy entry.cycleRequests = outcome at next
  obtain ⟨book, error | cycles⟩ := outcome
  · exact next
  · exact next

theorem records_addAll {asked : List CycleRequest} (records : builder.book.Records hierarchy asked)
    (entries : List PlanEntry) : (builder.addAll hierarchy entries).book.Records hierarchy
      (hierarchy.asked asked (entries.map PlanEntry.cycleRequests)) := by
  induction entries generalizing builder asked with
  | nil => exact records
  | cons entry rest ih => exact ih (records_addEntry records entry)

end Builder
end PlanGraph
