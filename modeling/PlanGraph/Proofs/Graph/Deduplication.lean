import Mathlib.Data.List.Forall2
import PlanGraph.Proofs.Graph.Building

/-! Shared patterns, trees and steps. Whatever entries a builder is given, and whichever of them fail, the
patterns of its graph are those of the entries without repetition, each with the first hint that an entry
gave for it, and the tables of the builder know the number of each pattern, tree and step. -/

set_option autoImplicit false
namespace PlanGraph

/-- The patterns of a builder are those of the entries, one to one, and its table knows their numbers. -/
structure Builder.Shares (builder : Builder) (entries : List PlanEntry) : Prop where
  patterns : builder.graph.patterns.map PatternNode.pattern = (entries.map PlanEntry.pattern).eraseDups
  distinct : (builder.graph.patterns.map PatternNode.pattern).Nodup
  spaces : List.Forall₂ (fun space entry => space.context = entry.context ∧
    builder.graph.pattern? space.pattern = some entry.pattern) builder.graph.spaces entries
  checks : ∀ node ∈ builder.graph.patterns, node.check =
    if node.pattern.predicate = .iri Rdf.Vocabulary.rdfType then
      entries.findSome? fun entry => if entry.pattern = node.pattern then entry.check else none
    else none
  table : ∀ pattern id, builder.registry.numbers.lookup pattern = some id ↔
    builder.graph.pattern? id = some pattern

/-- The tables of a builder know the trees by their seeds, and the steps by their parents and labels. -/
structure Builder.KnowsNumbers (builder : Builder) : Prop where
  trees : ∀ fingerprint id, builder.nursery.trees.lookup fingerprint = some id ↔
    ∃ tree, builder.graph.forest.trees[id]? = some tree ∧ tree.fingerprint = fingerprint
  steps : ∀ node label id, builder.nursery.steps.lookup (node, label) = some id ↔
    ∃ step, builder.graph.forest.steps[id]? = some step ∧ step.parent = node ∧ step.label = label

theorem requestedPatterns_entries (entries : List PlanEntry) :
    requestedPatterns (patternRequests entries) = (entries.map PlanEntry.pattern).eraseDups := by
  rw [requestedPatterns, patternRequests, List.map_map]
  rfl

theorem firstHint_entries (entries : List PlanEntry) (pattern : TriplePattern) :
    firstHint (patternRequests entries) pattern =
      if pattern.predicate = .iri Rdf.Vocabulary.rdfType then
        entries.findSome? fun entry => if entry.pattern = pattern then entry.check else none
      else none := by
  have hint (entry : PlanEntry) : (if entry.pattern = pattern then entry.checkHint else none) =
      if pattern.predicate = .iri Rdf.Vocabulary.rdfType then
        if entry.pattern = pattern then entry.check else none
      else none := by
    by_cases same : entry.pattern = pattern
    · subst same
      simp [PlanEntry.checkHint, TriplePattern.isTypePattern]
    · simp [same]
  rw [firstHint, patternRequests, List.findSome?_map]
  simp only [Function.comp_def, hint]
  split
  · rfl
  · exact List.findSome?_eq_none_iff.mpr fun _ _ => rfl

namespace Builder.Gathers
variable {builder : Builder} {given : List PlanEntry} {taken : List Inclusion}

theorem shares (gathers : builder.Gathers given taken) : builder.Shares given where
  patterns := by
    rw [Builder.graph, gathers.registry, ← requestedPatterns_entries]
    exact patterns_registered _
  distinct := by
    rw [Builder.graph, gathers.registry]
    exact patterns_registered_nodup _
  spaces := by
    have spaces : builder.graph.spaces = _ := gathers.spaces
    rw [spaces, List.forall₂_map_left_iff, List.forall₂_same]
    refine fun entry inside => ⟨rfl, ?_⟩
    rw [gathers.pattern?_eq, getElem?_numberOf (List.mem_map_of_mem inside)]
  checks := fun node member => by
    have member : node ∈ builder.registry.nodes := member
    rw [gathers.registry] at member
    obtain ⟨pattern, _, rfl⟩ := List.mem_map.mp member
    exact firstHint_entries given pattern
  table := fun pattern id => by
    rw [gathers.pattern?_eq, gathers.registry, PatternRegistry.lookup_ofRequests]

theorem knowsNumbers (gathers : builder.Gathers given taken) : builder.KnowsNumbers where
  trees := fun fingerprint id => by
    rw [graph, gathers.nursery, Nursery.lookup_trees gathers.orderly.links,
      gathers.orderly.links.treeWith?_eq_some, Forest.fingerprint_at]
    rfl
  steps := fun node label id => by
    rw [graph, gathers.nursery, Nursery.lookup_steps gathers.orderly.links,
      gathers.orderly.links.child?_eq_some, Forest.key_at]
    simp [Step.key]

end Builder.Gathers

/-- Failing entries register their patterns like others. -/
theorem shares_addAll (prefixes : Prefixes) (hierarchy : Hierarchy) (entries : List PlanEntry) :
    ((Builder.start prefixes).addAll hierarchy entries).Shares entries := by
  obtain ⟨taken, gathers⟩ := (Builder.gathers_start prefixes).addAll hierarchy entries
  exact gathers.shares

/-- No tree and no step is ever made twice, as the tables have all of them. -/
theorem knowsNumbers_addAll (prefixes : Prefixes) (hierarchy : Hierarchy) (entries : List PlanEntry) :
    ((Builder.start prefixes).addAll hierarchy entries).KnowsNumbers := by
  obtain ⟨taken, gathers⟩ := (Builder.gathers_start prefixes).addAll hierarchy entries
  exact gathers.knowsNumbers

end PlanGraph
