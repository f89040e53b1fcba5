import Mathlib.Data.List.Basic
import Mathlib.Data.List.Induction
import PlanGraph.Graph.Basic
import PlanGraph.Proofs.Collections

/-! The registry of patterns. After any requests it lists the requested patterns in the order of their
first requests, each with the first hint that was given for it. -/

set_option autoImplicit false
namespace PlanGraph

abbrev PatternRequest := TriplePattern × Option Bool

def firstHint (requests : List PatternRequest) (pattern : TriplePattern) : Option Bool :=
  requests.findSome? fun request => if request.1 = pattern then request.2 else none

def requestedPatterns (requests : List PatternRequest) : List TriplePattern :=
  (requests.map (·.1)).eraseDups

def registered (requests : List PatternRequest) : List PatternNode :=
  (requestedPatterns requests).map fun pattern => ⟨pattern, firstHint requests pattern⟩

theorem eraseDups_concat {α : Type} [DecidableEq α] (list : List α) (value : α) :
    (list ++ [value]).eraseDups = if value ∈ list then list.eraseDups else list.eraseDups ++ [value] := by
  rw [List.eraseDups_append]
  by_cases member : value ∈ list <;> simp [List.removeAll, member, List.eraseDups_cons]

theorem nodup_eraseDups {α : Type} [DecidableEq α] (list : List α) : list.eraseDups.Nodup := by
  induction list using List.reverseRecOn with
  | nil => exact .nil
  | append_singleton list value ih =>
    rw [eraseDups_concat]
    split
    · exact ih
    · rename_i new
      rw [List.nodup_append]
      refine ⟨ih, List.pairwise_singleton .., fun old member other last => ?_⟩
      rintro rfl
      rw [List.mem_singleton.mp last] at member
      exact new (List.mem_eraseDups.mp member)

section
variable {requests : List PatternRequest} {pattern : TriplePattern} {hint : Option Bool}

theorem mem_requestedPatterns : pattern ∈ requestedPatterns requests ↔ ∃ hint, (pattern, hint) ∈ requests := by
  simp [requestedPatterns]

theorem patterns_registered (requests : List PatternRequest) :
    (registered requests).map PatternNode.pattern = requestedPatterns requests := by
  simp [registered, Function.comp_def]

theorem length_registered (requests : List PatternRequest) :
    (registered requests).length = (requestedPatterns requests).length := by
  rw [← patterns_registered, List.length_map]

theorem patterns_registered_nodup (requests : List PatternRequest) :
    ((registered requests).map PatternNode.pattern).Nodup := by
  rw [patterns_registered]
  exact nodup_eraseDups _

theorem firstHint_concat (other : TriplePattern) :
    firstHint (requests ++ [(pattern, hint)]) other =
      (firstHint requests other <|> if pattern = other then hint else none) := by
  rw [firstHint, List.findSome?_append]
  cases chosen : (if pattern = other then hint else none) <;> simp [firstHint, chosen]

theorem firstHint_of_not_mem (absent : ¬pattern ∈ requestedPatterns requests) :
    firstHint requests pattern = none := by
  refine List.findSome?_eq_none_iff.mpr fun request member => ?_
  have other : request.1 ≠ pattern := by
    rintro rfl
    exact absent (mem_requestedPatterns.mpr ⟨request.2, member⟩)
  simp [other]

theorem requestedPatterns_concat (requests : List PatternRequest) (pattern : TriplePattern)
    (hint : Option Bool) : requestedPatterns (requests ++ [(pattern, hint)]) =
      if pattern ∈ requestedPatterns requests then requestedPatterns requests
      else requestedPatterns requests ++ [pattern] := by
  unfold requestedPatterns
  rw [List.map_append, List.map_singleton, eraseDups_concat]
  simp only [List.mem_eraseDups]

/-- A request of a known pattern can only give it its first hint. -/
theorem modify_registered {id : PatternId} (found : (requestedPatterns requests)[id]? = some pattern) :
    (registered requests).modify id (fun node => { node with check := node.check <|> hint }) =
      registered (requests ++ [(pattern, hint)]) := by
  have known : pattern ∈ requestedPatterns requests := List.mem_of_getElem? found
  have nodup := nodup_eraseDups (requests.map (·.1))
  refine List.ext_getElem? fun other => ?_
  unfold registered
  rw [getElem?_modify_eq_ite, requestedPatterns_concat, if_pos known, List.getElem?_map, List.getElem?_map]
  by_cases same : id = other
  · subst same
    simp [found, firstHint_concat]
  · cases there : (requestedPatterns requests)[other]? with
    | none => simp
    | some next =>
      -- Requested patterns do not repeat, so at another place there is another pattern.
      have differs : pattern ≠ next := by
        rintro rfl
        have bound := (List.getElem?_eq_some_iff.mp found).1
        exact same ((List.getElem?_inj bound nodup).mp (found.trans there.symm))
      simp [same, firstHint_concat, differs]

theorem registered_concat_new (new : ¬pattern ∈ requestedPatterns requests) :
    registered requests ++ [⟨pattern, hint⟩] = registered (requests ++ [(pattern, hint)]) := by
  have kept : ∀ other ∈ requestedPatterns requests,
      firstHint (requests ++ [(pattern, hint)]) other = firstHint requests other := by
    intro other member
    have differs : pattern ≠ other := by
      rintro rfl
      exact new member
    simp [firstHint_concat, differs]
  have first : firstHint (requests ++ [(pattern, hint)]) pattern = hint := by
    simp [firstHint_concat, firstHint_of_not_mem new]
  unfold registered
  rw [requestedPatterns_concat, if_neg new, List.map_append, List.map_singleton, first]
  exact congrArg (· ++ _) (List.map_congr_left fun other member => by rw [kept other member])

/-- The registry that requests lead to. Its table numbers the nodes in their order. -/
def PatternRegistry.ofRequests (requests : List PatternRequest) : PatternRegistry :=
  ⟨(requestedPatterns requests).zipIdx, registered requests⟩

theorem PatternRegistry.lookup_ofRequests {id : PatternId} :
    (ofRequests requests).numbers.lookup pattern = some id ↔
      (requestedPatterns requests)[id]? = some pattern :=
  lookup_zipIdx_eq_some (nodup_eraseDups _)

theorem PatternRegistry.register_ofRequests (requests : List PatternRequest) (pattern : TriplePattern)
    (hint : Option Bool) : (ofRequests requests).register pattern hint =
      (ofRequests (requests ++ [(pattern, hint)]),
        (requestedPatterns (requests ++ [(pattern, hint)])).idxOf pattern) := by
  unfold register ofRequests
  rw [lookup_zipIdx, requestedPatterns_concat]
  by_cases known : pattern ∈ requestedPatterns requests
  · have bound := List.idxOf_lt_length_of_mem known
    have there : (requestedPatterns requests)[(requestedPatterns requests).idxOf pattern]? =
        some pattern := by
      rw [List.getElem?_eq_getElem bound, List.getElem_idxOf]
    simp only [known, if_true, Nat.zero_add, ← modify_registered there]
  · have place : (requestedPatterns requests ++ [pattern]).idxOf pattern =
        (requestedPatterns requests).length := by
      rw [List.idxOf_append_of_notMem known, List.idxOf_cons_self, Nat.add_zero]
    simp only [known, if_false, ← registered_concat_new known, place, List.zipIdx_append,
      List.zipIdx_singleton, Nat.zero_add, length_registered]

/-- A request that was made before changes nothing, whatever was requested in between. -/
theorem PatternRegistry.ofRequests_again (known : (pattern, hint) ∈ requests) :
    ofRequests (requests ++ [(pattern, hint)]) = ofRequests requests := by
  have patterns : requestedPatterns (requests ++ [(pattern, hint)]) = requestedPatterns requests := by
    rw [requestedPatterns_concat, if_pos (mem_requestedPatterns.mpr ⟨hint, known⟩)]
  have hints (other : TriplePattern) :
      firstHint (requests ++ [(pattern, hint)]) other = firstHint requests other := by
    rw [firstHint_concat]
    cases first : firstHint requests other with
    | some value => rfl
    | none =>
      -- Without a first hint none of the requests gives one, so this one does not either.
      have given := List.findSome?_eq_none_iff.mp first (pattern, hint) known
      simpa using given
  simp only [ofRequests, registered, patterns, hints]

theorem requestedPatterns_prefix (earlier later : List PatternRequest) :
    requestedPatterns earlier <+: requestedPatterns (earlier ++ later) := by
  unfold requestedPatterns
  rw [List.map_append, List.eraseDups_append]
  exact List.prefix_append _ _

end
end PlanGraph
