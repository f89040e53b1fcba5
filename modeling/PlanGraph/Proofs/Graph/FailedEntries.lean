import PlanGraph.Proofs.Graph.Building
import PlanGraph.Proofs.Graph.Trie

/-! Entries that fail. Their cycles are requested before any of their paths is included, so they open a
space, register its pattern and leave what they described before the failing request, and nothing else. -/

set_option autoImplicit false
namespace PlanGraph

structure CycleBook.FailsAfter (hierarchy : Hierarchy) (book : CycleBook) (requests : List CycleRequest)
    (error : UnknownType) (before : List CycleRequest) : Prop where
  next : ∃ id first rest after, requests = before ++ (id, first :: rest) :: after ∧
    ¬id ∈ book.requested ∧ before.lookup id = none ∧ ¬hierarchy.contains first.type = true ∧
      error = ⟨first.type⟩
  met : ∀ id steps, before.lookup id = some steps → id ∈ book.requested ∨ hierarchy.CanStart steps

structure Builder.OnlyOpens (hierarchy : Hierarchy) (builder : Builder) (entry : PlanEntry)
    (error : UnknownType) (later : Builder) : Prop where
  prefixes : later.graph.prefixes = builder.graph.prefixes
  forest : later.graph.forest = builder.graph.forest
  registry : later.registry = (builder.registry.register entry.pattern entry.checkHint).1
  spaces : ∃ id, later.graph.spaces = builder.graph.spaces ++ [⟨entry.context, id⟩] ∧
    later.graph.pattern? id = some entry.pattern
  cycles : ∃ before,
    builder.book.FailsAfter hierarchy (entry.cycles.flatMap PlannedCycle.requests) error before ∧
      ∀ id cycle, later.graph.cycles.find? id = some cycle ↔
        builder.graph.cycles.find? id = some cycle ∨
          ¬id ∈ builder.book.requested ∧ (before.lookup id).bind hierarchy.cycle? = some cycle
  included : ∃ path ∈ entry.paths, ∃ type, path.startingType? entry.pattern = some type

namespace CycleBook
variable {hierarchy : Hierarchy} {book next : CycleBook} {asked : List CycleRequest}

theorem Records.failsAfter (records : Records hierarchy book asked) {requests : List CycleRequest}
    {error : UnknownType} (fails : book.requestAll hierarchy requests = (next, .error error)) :
    ∃ before, FailsAfter hierarchy book requests error before ∧ ∀ id cycle,
      next.cycles.find? id = some cycle ↔ book.cycles.find? id = some cycle ∨
        ¬id ∈ book.requested ∧ (before.lookup id).bind hierarchy.cycle? = some cycle := by
  have outcome := records.inTurn requests
  rw [fails] at outcome
  cases outcome with
  | @refused _ before after request _ split later unrefused refusal =>
    obtain ⟨id, steps⟩ := request
    obtain ⟨fresh, first, rest, rfl, unknown, rfl⟩ := Hierarchy.refusal?_eq_some.mp refusal
    rw [List.lookup_append, Option.or_eq_none_iff] at fresh
    refine ⟨before, ⟨⟨id, first, rest, after, split, records.lookup_eq_none_iff.mp fresh.1, fresh.2,
      unknown, rfl⟩, fun other steps requested => ?_⟩, fun other cycle => ?_⟩
    · exact (unrefused.canStart requested).imp_left (records.requested other).mpr
    · rw [later.cycles, records.cycles, ← records.lookup_eq_none_iff, List.lookup_append, lookup_concat]
      cases asked.lookup other with
      | some earlier => simp
      | none =>
        cases before.lookup other with
        | some earlier => simp
        | none =>
          -- Only the refused request may be left, and that one describes nothing.
          have nothing : hierarchy.cycle? (first :: rest) = none := if_neg unknown
          by_cases same : other = id
          · simp [same, nothing]
          · simp [same]

end CycleBook

namespace Builder
variable {hierarchy : Hierarchy} {builder : Builder} {given : List PlanEntry} {taken : List Inclusion}

theorem included_of_fails {entry : PlanEntry} {book : CycleBook} {error : UnknownType}
    (fails : builder.book.requestAll hierarchy entry.cycleRequests = (book, .error error)) :
    entry.includedPaths ≠ [] := by
  intro nothing
  rw [PlanEntry.cycleRequests, if_pos nothing] at fails
  cases fails

theorem Gathers.onlyOpens (gathers : builder.Gathers given taken) {asked : List CycleRequest}
    (records : builder.book.Records hierarchy asked) {entry : PlanEntry} {error : UnknownType}
    {later : Builder} (fails : builder.addEntry hierarchy entry = (later, some error)) :
    builder.OnlyOpens hierarchy entry error later := by
  obtain ⟨more, next⟩ := gathers.addEntry hierarchy entry
  rw [fails] at next
  rw [addEntry_eq] at fails
  rcases requested : builder.book.requestAll hierarchy entry.cycleRequests with ⟨book, other | cycles⟩
  · rw [requested] at fails
    cases fails
    have included := included_of_fails requested
    rw [PlanEntry.cycleRequests_of_included included] at requested
    obtain ⟨⟨path, type⟩, member⟩ := List.exists_mem_of_ne_nil _ included
    obtain ⟨inside, starts⟩ := PlanEntry.mem_includedPaths.mp member
    -- The entry is gathered although it fails, so its number names its pattern from now on.
    have named := next.pattern?_eq (numberOf (given ++ [entry]) entry.pattern)
    rw [getElem?_numberOf (by simp)] at named
    refine ⟨rfl, rfl, rfl, ⟨numberOf (given ++ [entry]) entry.pattern, ?_, named⟩,
      records.failsAfter requested, path, inside, type, starts⟩
    rw [openSpace_eq gathers.registry]
    rfl
  · rw [requested] at fails
    cases fails

/-- Entries that fail change neither trees nor steps, whatever was given before. -/
theorem failed_only_opens (prefixes : Prefixes) (hierarchy : Hierarchy) (given : List PlanEntry)
    (entry : PlanEntry) (error : UnknownType) (later : Builder)
    (fails : ((start prefixes).addAll hierarchy given).addEntry hierarchy entry = (later, some error)) :
    ((start prefixes).addAll hierarchy given).OnlyOpens hierarchy entry error later := by
  obtain ⟨taken, gathers⟩ := (gathers_start prefixes).addAll hierarchy given
  have records := @records_addAll hierarchy (start prefixes) [] (CycleBook.records_empty hierarchy) given
  exact gathers.onlyOpens records fails

end Builder

/-- An entry with a path that is skipped and one that is not. Its cycle can be described, the reverse of
its cycle cannot. -/
def robotEntry : PlanEntry where
  context := "query"
  pattern := ⟨.variable "x", .iri "name", .variable "n"⟩
  check := none
  cycles := [⟨"d", [⟨"knows", "Person"⟩, ⟨"built", "Robot"⟩]⟩]
  paths := [⟨[], [], none⟩, ⟨[⟨"built", "Robot"⟩], ["group"], none⟩]

theorem failed_only_opens_robot : ∃ later,
    ((Builder.start ∅).addAll groupTypes [memberEntry, nameEntry]).addEntry groupTypes robotEntry =
        (later, some ⟨"Robot"⟩) ∧
      ((Builder.start ∅).addAll groupTypes [memberEntry, nameEntry]).OnlyOpens groupTypes robotEntry ⟨"Robot"⟩
        later ∧
      later.graph.cycles.keys = .ofList ["c", "d"] := by
  have fails : (((Builder.start ∅).addAll groupTypes [memberEntry, nameEntry]).addEntry groupTypes robotEntry).2 =
      some ⟨"Robot"⟩ := by
    decide
  exact ⟨_, Prod.ext rfl fails, Builder.failed_only_opens ∅ groupTypes _ robotEntry _ _ (Prod.ext rfl fails),
    by decide⟩

end PlanGraph
