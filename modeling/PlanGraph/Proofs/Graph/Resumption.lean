import PlanGraph.Proofs.Graph.Repetition
import PlanGraph.Proofs.Hierarchy.Histories

/-! Finishing that fails on an unknown type and is tried again when more types are declared. A type that
is declared on its own lies below no other type, so the trees that were narrowed before the failure are
narrowed the same again, and the second attempt comes to what it would have come to at once. -/

set_option autoImplicit false
namespace PlanGraph

namespace Hierarchy
variable {before after hierarchy : Hierarchy} {types : OrderedSet Iri} {names : List Iri} {error : UnknownType}

def addTypes (hierarchy : Hierarchy) (names : List Iri) : Hierarchy := names.foldl addType hierarchy

theorem gains_addTypes : hierarchy.Gains (hierarchy.addTypes names) (· ∈ names) fun _ _ => False :=
  (gains_foldl (fun _ => gains_addType) names).congr (by simp) (by simp)

theorem Gains.below_eq {named : Iri → Prop} (gains : before.Gains after named fun _ _ => False) :
    after.below = before.below := by
  have same : after.Leads TypeEntry.sub = before.Leads TypeEntry.sub := by
    funext upper lower
    simpa using gains.lower upper lower
  funext type
  refine OrderedSet.ext fun other => ?_
  rw [below, below, mem_reachable_start, mem_reachable_start, same]

theorem specific_addTypes : (hierarchy.addTypes names).specific types = hierarchy.specific types := by
  simp only [specific, gains_addTypes.below_eq]

theorem contains_addTypes {type : Iri} :
    (hierarchy.addTypes names).contains type = true ↔ type ∈ names ∨ hierarchy.contains type = true := by
  simpa using gains_addTypes.known type

structure FirstUnknown (hierarchy : Hierarchy) (types : OrderedSet Iri) (type : Iri) : Prop where
  member : type ∈ types
  unknown : ¬hierarchy.contains type = true
  least : ∀ other, other ∈ types → ¬hierarchy.contains other = true → type ≤ other

theorem FirstUnknown.unique {first second : Iri} (one : hierarchy.FirstUnknown types first)
    (two : hierarchy.FirstUnknown types second) : first = second :=
  Std.le_antisymm (one.least second two.member two.unknown) (two.least first one.member one.unknown)

/-- Sets are listed in increasing order, so the first unknown type in the listing is the smallest. -/
theorem firstUnknown_of_mostSpecific (fails : hierarchy.mostSpecific types = .error error) :
    hierarchy.FirstUnknown types error.type := by
  unfold mostSpecific at fails
  split at fails
  · next unknown found =>
    cases fails
    obtain ⟨missing, known, later, listed, before⟩ := List.find?_eq_some_iff_append.mp found
    have increasing := types.increasing
    rw [listed] at increasing
    have after := (List.pairwise_cons.mp (List.pairwise_append.mp increasing).2.1).1
    refine ⟨List.mem_of_find?_eq_some found, by simpa using missing, fun other member alsoMissing => ?_⟩
    rw [OrderedSet.mem_def, listed, List.mem_append, List.mem_cons] at member
    rcases member with earlier | rfl | next
    · exact absurd (by simpa using before other earlier) alsoMissing
    · exact Std.le_refl _
    · exact Std.le_of_lt (after other next)
  · cases fails

theorem mostSpecific_eq_error_iff :
    hierarchy.mostSpecific types = .error error ↔ hierarchy.FirstUnknown types error.type := by
  refine ⟨firstUnknown_of_mostSpecific, fun first => ?_⟩
  obtain ⟨other, fails⟩ := mostSpecific_of_unknown first.member first.unknown
  have same : other.type = error.type := (firstUnknown_of_mostSpecific fails).unique first
  rw [fails, show other = error from congrArg UnknownType.mk same]

end Hierarchy

namespace Graph
variable {graph stopped : Graph} {hierarchy : Hierarchy} {names : List Iri} {error : UnknownType}

theorem narrowTrees_stops {trees : List SearchTree}
    (fails : (narrowTrees hierarchy trees).2 = some error) :
    ∃ before failing after, trees = before ++ failing :: after ∧ SourcesKnown hierarchy before ∧
      hierarchy.FirstUnknown failing.fromTypes error.type ∧
      (narrowTrees hierarchy trees).1 = before.map (narrowTree hierarchy) ++ failing :: after := by
  induction trees with
  | nil => cases fails
  | cons tree rest ih =>
    cases outcome : hierarchy.mostSpecific tree.fromTypes with
    -- The first tree with an unknown type stays as it is, and so do those after it.
    | error unknown =>
      simp only [narrowTrees, outcome, Option.some.injEq] at fails ⊢
      subst fails
      exact ⟨[], tree, rest, rfl, by simp [SourcesKnown], Hierarchy.mostSpecific_eq_error_iff.mp outcome, rfl⟩
    | ok fromTypes =>
      obtain ⟨known, rfl⟩ := Hierarchy.mostSpecific_eq_ok_iff.mp outcome
      simp only [narrowTrees, outcome] at fails ⊢
      obtain ⟨before, failing, after, parts, earlier, first, narrowed⟩ := ih fails
      refine ⟨tree :: before, failing, after, congrArg (tree :: ·) parts, ?_, first, ?_⟩
      · exact List.forall_mem_cons.mpr ⟨known, earlier⟩
      · rw [narrowed]
        rfl

theorem narrowTrees_addTypes (trees : List SearchTree) :
    narrowTrees (hierarchy.addTypes names) (narrowTrees hierarchy trees).1 =
      narrowTrees (hierarchy.addTypes names) trees := by
  induction trees with
  | nil => rfl
  | cons tree rest ih =>
    cases outcome : hierarchy.mostSpecific tree.fromTypes with
    -- Nothing has been narrowed from here on.
    | error error => simp only [narrowTrees, outcome]
    | ok fromTypes =>
      obtain ⟨known, rfl⟩ := Hierarchy.mostSpecific_eq_ok_iff.mp outcome
      have once : (hierarchy.addTypes names).mostSpecific tree.fromTypes =
          .ok (hierarchy.specific tree.fromTypes) := by
        refine Hierarchy.mostSpecific_eq_ok_iff.mpr ⟨fun type member => ?_, Hierarchy.specific_addTypes⟩
        exact Hierarchy.contains_addTypes.mpr (Or.inr (known type member))
      -- The specific types of specific types are those types, so narrowing again changes nothing.
      have twice : (hierarchy.addTypes names).mostSpecific (hierarchy.specific tree.fromTypes) =
          .ok (hierarchy.specific tree.fromTypes) := by
        refine Hierarchy.mostSpecific_eq_ok_iff.mpr ⟨fun type member => ?_, ?_⟩
        · exact Hierarchy.contains_addTypes.mpr (Or.inr (known type (Hierarchy.mem_of_mem_specific member)))
        · rw [Hierarchy.specific_addTypes, Hierarchy.specific_specific]
      simp only [narrowTrees, outcome, once, twice, ih]

theorem finish_narrowed_addTypes :
    (graph.narrowed hierarchy).finish (hierarchy.addTypes names) = graph.finish (hierarchy.addTypes names) := by
  unfold finish
  rw [narrowed, narrowTrees_addTypes]

/-- Finishing that fails names the smallest unknown type of the first tree with one, has narrowed the
trees before that tree and has changed nothing else. Whatever types are declared then, finishing what is
left of it comes to the same as finishing the graph as it was. -/
theorem finish_resumes (failed : graph.finish hierarchy = (stopped, some error)) :
    (∃ before failing after, graph.forest.trees = before ++ failing :: after ∧
      SourcesKnown hierarchy before ∧ hierarchy.FirstUnknown failing.fromTypes error.type ∧
      stopped = { graph with forest := { graph.forest with
        trees := before.map (narrowTree hierarchy) ++ failing :: after } }) ∧
    ∀ names, stopped.finish (hierarchy.addTypes names) = graph.finish (hierarchy.addTypes names) := by
  rcases finish_cases graph hierarchy with ⟨other, stops, result⟩ | ⟨_, result⟩
  · obtain ⟨rfl, same⟩ := Prod.mk.inj (result.symm.trans failed)
    cases same
    refine ⟨?_, fun names => finish_narrowed_addTypes⟩
    obtain ⟨before, failing, after, parts, known, first, trees⟩ := narrowTrees_stops stops
    refine ⟨before, failing, after, parts, known, first, ?_⟩
    exact congrArg (fun trees => { graph with forest := { graph.forest with trees } }) trees
  · rw [result] at failed
    cases failed

end Graph

/-! The credits of films beside their cast, whose types are not known at first, and their crew. -/

def castEntry : PlanEntry where
  context := "query"
  pattern := ⟨.variable "x", .iri "role", .variable "r"⟩
  check := none
  cycles := []
  paths := [⟨[⟨"role", "Stunt"⟩], ["cast"], none⟩, ⟨[⟨"role", "Actor"⟩], ["cast"], none⟩]

def crewEntry : PlanEntry where
  context := "query"
  pattern := ⟨.iri "studio", .iri "employs", .variable "y"⟩
  check := none
  cycles := []
  paths := [⟨[⟨"work", "Film"⟩], ["crew"], none⟩, ⟨[⟨"work", "Documentary"⟩], ["crew"], none⟩]

/-- A graph of the three entries, by the types that two of the trees start from and the crew's seeds. -/
def companyFrom (credits crew seeds : List Iri) : Graph where
  prefixes := ∅
  spaces := [⟨"query", 0⟩, ⟨"query", 1⟩, ⟨"query", 2⟩]
  patterns := [⟨creditsEntry.pattern, none⟩, ⟨castEntry.pattern, none⟩, ⟨crewEntry.pattern, none⟩]
  forest := ⟨[{ creditsTree with fromTypes := .ofList credits },
      ⟨fingerprint ["cast"], .ofList ["Actor", "Stunt"], .ofList ["cast"], 2, ∅, ∅, [1]⟩,
      ⟨fingerprint ["crew"], .ofList crew, .ofList seeds, 2, ∅, ∅, [2]⟩],
    [⟨.tree 0, .leaf, .ofList ["Documentary", "Film", "Person"], .ofList [0], none, ∅, []⟩,
      ⟨.tree 1, .leaf, .ofList ["Actor", "Stunt"], .ofList [1], none, ∅, []⟩,
      ⟨.tree 2, .leaf, .ofList ["Documentary", "Film"], .ofList [2], none, ∅, []⟩]⟩
  cycles := ∅

def companyPlan : Plan := ⟨∅, [creditsEntry, castEntry, crewEntry]⟩

def companyGraph : Graph :=
  companyFrom ["Documentary", "Film", "Person"] ["Documentary", "Film"] ["crew"]

theorem finish_resumes_company :
    companyPlan.initialGraph filmTypes = .ok companyGraph ∧
      companyGraph.finish filmTypes =
        (companyFrom ["Documentary", "Person"] ["Documentary", "Film"] ["crew"], some ⟨"Actor"⟩) ∧
      (∃ before failing after, companyGraph.forest.trees = before ++ failing :: after ∧
        Graph.SourcesKnown filmTypes before ∧ filmTypes.FirstUnknown failing.fromTypes "Actor" ∧
        companyFrom ["Documentary", "Person"] ["Documentary", "Film"] ["crew"] =
          { companyGraph with forest := { companyGraph.forest with
            trees := before.map (Graph.narrowTree filmTypes) ++ failing :: after } }) ∧
      (companyFrom ["Documentary", "Person"] ["Documentary", "Film"] ["crew"]).finish
          (filmTypes.addTypes ["Stunt", "Actor"]) = companyGraph.finish (filmTypes.addTypes ["Stunt", "Actor"]) ∧
      companyGraph.finish (filmTypes.addTypes ["Stunt", "Actor"]) =
        (companyFrom ["Documentary", "Person"] ["Documentary"] ["crew", "studio"], none) := by
  have failed : companyGraph.finish filmTypes =
      (companyFrom ["Documentary", "Person"] ["Documentary", "Film"] ["crew"], some ⟨"Actor"⟩) := by
    decide +kernel
  obtain ⟨stops, resumes⟩ := Graph.finish_resumes failed
  exact ⟨by decide +kernel, failed, stops, resumes ["Stunt", "Actor"], by decide +kernel⟩

end PlanGraph
