import Mathlib.Logic.Relation
import PlanGraph.Hierarchy
import PlanGraph.Proofs.Collections

/-! The closures of a hierarchy. A walk along edges finds what chains of edges lead to, so the types
below a type are closed under going further down, and they grow with the declarations. -/

set_option autoImplicit false
namespace PlanGraph

structure TypeEdge where
  source : Iri
  target : Iri
deriving DecidableEq, Repr

namespace Hierarchy

theorem mem_neighbours {hierarchy : Hierarchy} {side : TypeEntry → OrderedSet Iri} {type next : Iri} :
    next ∈ hierarchy.neighbours side type ↔
      ∃ entry, hierarchy.entries.find? type = some entry ∧ next ∈ side entry := by
  unfold neighbours
  cases hierarchy.entries.find? type <;> simp

theorem contains_iff {hierarchy : Hierarchy} {type : Iri} :
    hierarchy.contains type = true ↔ type ∈ hierarchy.types := by
  unfold contains types
  rw [OrderedMap.contains_iff, OrderedSet.mem_def]
  simp [OrderedMap.keys, OrderedMap.mem_entries]

def Leads (hierarchy : Hierarchy) (side : TypeEntry → OrderedSet Iri) (first second : Iri) : Prop :=
  second ∈ hierarchy.neighbours side first

section
variable {walk : Walk} {type : Iri}

theorem mem_found_meetAll {types : List Iri} :
    type ∈ (types.foldl Walk.meet walk).found ↔ type ∈ types ∨ type ∈ walk.found := by
  induction types generalizing walk with
  | nil => simp
  | cons first rest ih =>
    have met : type ∈ (walk.meet first).found ↔ type = first ∨ type ∈ walk.found := by
      unfold Walk.meet
      split
      · next known =>
        refine (or_iff_right_of_imp ?_).symm
        rintro rfl
        exact OrderedSet.contains_iff.mp known
      · exact OrderedSet.mem_insert
    rw [List.foldl_cons, ih, met, List.mem_cons, or_left_comm, or_assoc]

theorem mem_pending_meetAll {types : List Iri} :
    type ∈ (types.foldl Walk.meet walk).pending ↔
      type ∈ walk.pending ∨ type ∈ types ∧ ¬type ∈ walk.found := by
  induction types generalizing walk with
  | nil => simp
  | cons first rest ih =>
    rw [List.foldl_cons, ih, List.mem_cons]
    unfold Walk.meet
    split
    · next known =>
      have found := OrderedSet.contains_iff.mp known
      by_cases same : type = first <;> simp [same, found]
    · next new =>
      have missing : ¬first ∈ walk.found := fun found => new (OrderedSet.contains_iff.mpr found)
      by_cases same : type = first <;> simp [same, missing]

end

/-- A type that a walk has found is still to be left, or its neighbours are found as well. -/
structure Walk.Fair (walk : Walk) (hierarchy : Hierarchy) (side : TypeEntry → OrderedSet Iri) :
    Prop where
  pending : ∀ type ∈ walk.pending, type ∈ walk.found
  left : ∀ type, type ∈ walk.found → type ∈ walk.pending ∨
    ∀ next, hierarchy.Leads side type next → next ∈ walk.found

section
variable {hierarchy : Hierarchy} {side : TypeEntry → OrderedSet Iri} {walk : Walk}

theorem fair_start (type : Iri) : (Walk.start type).Fair hierarchy side where
  pending := fun other member => by simpa [Walk.start] using member
  left := fun other found => Or.inl (by simpa [Walk.start] using found)

theorem Walk.Fair.visit {current : Iri} {rest : List Iri} (fair : walk.Fair hierarchy side)
    (first : walk.pending = current :: rest) :
    (hierarchy.visit side { walk with pending := rest } current).Fair hierarchy side where
  pending := fun type member => by
    rcases mem_pending_meetAll.mp member with waiting | ⟨next, _⟩
    · have before : type ∈ walk.pending := first ▸ List.mem_cons_of_mem current waiting
      exact mem_found_meetAll.mpr (Or.inr (fair.pending type before))
    · exact mem_found_meetAll.mpr (Or.inl next)
  left := fun type member => by
    -- A type found before waits, is the one left now, or has been left; a new one waits.
    by_cases before : type ∈ walk.found
    · rcases fair.left type before with waiting | left
      · rcases List.mem_cons.mp (first ▸ waiting) with rfl | later
        · exact Or.inr fun next leads => mem_found_meetAll.mpr (Or.inl leads)
        · exact Or.inl (mem_pending_meetAll.mpr (Or.inl later))
      · exact Or.inr fun next leads => mem_found_meetAll.mpr (Or.inr (left next leads))
    · have new := (mem_found_meetAll.mp member).resolve_right before
      exact Or.inl (mem_pending_meetAll.mpr (Or.inr ⟨new, before⟩))

/-- A walk finds exactly the types that chains of neighbours lead to. -/
theorem mem_reachable {type : Iri} (fair : walk.Fair hierarchy side) :
    type ∈ hierarchy.reachable side walk ↔
      ∃ start, start ∈ walk.found ∧ Relation.ReflTransGen (hierarchy.Leads side) start type := by
  fun_induction reachable hierarchy side walk with
  | case1 walk done =>
    refine ⟨fun member => ⟨type, member, .refl⟩, ?_⟩
    rintro ⟨start, member, chain⟩
    -- Nothing is left to go on from, so a chain of neighbours never gets out.
    induction chain with
    | refl => exact member
    | @tail middle _ _ leads inside =>
      have left := (fair.left middle inside).resolve_left (by simp [done])
      exact left _ leads
  | case2 walk current rest first ih =>
    rw [ih (fair.visit first)]
    have here : current ∈ walk.found := fair.pending current (by simp [first])
    constructor
    · rintro ⟨start, member, chain⟩
      rcases mem_found_meetAll.mp member with next | before
      · exact ⟨current, here, chain.head next⟩
      · exact ⟨start, before, chain⟩
    · rintro ⟨start, member, chain⟩
      exact ⟨start, mem_found_meetAll.mpr (Or.inr member), chain⟩

theorem mem_reachable_start {type other : Iri} :
    other ∈ hierarchy.reachable side (.start type) ↔
      Relation.ReflTransGen (hierarchy.Leads side) type other := by
  rw [mem_reachable (fair_start type)]
  simp [Walk.start]

end

def edges (hierarchy : Hierarchy) : List TypeEdge :=
  hierarchy.entries.entries.flatMap fun (type, entry) => entry.sub.elements.map (⟨·, type⟩)

def DirectSubtype (hierarchy : Hierarchy) (type subtype : Iri) : Prop :=
  ⟨subtype, type⟩ ∈ hierarchy.edges

theorem leads_sub {hierarchy : Hierarchy} : hierarchy.Leads TypeEntry.sub = hierarchy.DirectSubtype := by
  funext type subtype
  refine propext (mem_neighbours.trans ?_)
  unfold DirectSubtype edges
  rw [List.mem_flatMap]
  constructor
  · rintro ⟨entry, found, member⟩
    exact ⟨(type, entry), OrderedMap.mem_entries.mpr found, List.mem_map.mpr ⟨subtype, member, rfl⟩⟩
  · rintro ⟨⟨key, entry⟩, listed, inside⟩
    obtain ⟨lower, member, same⟩ := List.mem_map.mp inside
    cases same
    exact ⟨entry, OrderedMap.mem_entries.mp listed, member⟩

theorem mem_below {hierarchy : Hierarchy} {type lower : Iri} :
    lower ∈ hierarchy.below type ↔ Relation.ReflTransGen hierarchy.DirectSubtype type lower := by
  rw [below, mem_reachable_start, leads_sub]

theorem self_mem_below (hierarchy : Hierarchy) (type : Iri) : type ∈ hierarchy.below type :=
  mem_below.mpr .refl

theorem below_trans {hierarchy : Hierarchy} {type lower lowest : Iri}
    (first : lower ∈ hierarchy.below type) (second : lowest ∈ hierarchy.below lower) :
    lowest ∈ hierarchy.below type :=
  mem_below.mpr ((mem_below.mp first).trans (mem_below.mp second))

theorem closure_eq_ok_iff {hierarchy : Hierarchy} {side : TypeEntry → OrderedSet Iri} {type : Iri}
    {found : OrderedSet Iri} : hierarchy.closure side type = .ok found ↔
      hierarchy.contains type = true ∧ hierarchy.reachable side (.start type) = found := by
  unfold closure
  split <;> simp [*]

theorem closure_eq_error_iff {hierarchy : Hierarchy} {side : TypeEntry → OrderedSet Iri} {type : Iri} :
    hierarchy.closure side type = .error ⟨type⟩ ↔ ¬hierarchy.contains type = true := by
  unfold closure
  split <;> simp [*]

theorem subtypes_eq_ok_iff {hierarchy : Hierarchy} {type : Iri} {found : OrderedSet Iri} :
    hierarchy.subtypes type = .ok found ↔
      hierarchy.contains type = true ∧ hierarchy.below type = found :=
  closure_eq_ok_iff

theorem subtypes_of_known {hierarchy : Hierarchy} {type : Iri}
    (known : hierarchy.contains type = true) : hierarchy.subtypes type = .ok (hierarchy.below type) :=
  subtypes_eq_ok_iff.mpr ⟨known, rfl⟩

theorem subtypes_of_unknown {hierarchy : Hierarchy} {type : Iri}
    (unknown : ¬hierarchy.contains type = true) : hierarchy.subtypes type = .error ⟨type⟩ :=
  closure_eq_error_iff.mpr unknown

theorem subtypesOfAll_from {hierarchy : Hierarchy} {types : List Iri} {start found : OrderedSet Iri} :
    types.foldlM (fun found type => (hierarchy.subtypes type).map found.union) start = .ok found ↔
      (∀ type ∈ types, hierarchy.contains type = true) ∧
        ∀ lower, lower ∈ found ↔ lower ∈ start ∨ ∃ type ∈ types, lower ∈ hierarchy.below type := by
  induction types generalizing start with
  | nil =>
    constructor
    · intro done
      cases done
      simp
    · rintro ⟨_, members⟩
      exact congrArg Except.ok (OrderedSet.ext fun lower => by simp [members])
  | cons type rest ih =>
    rw [List.foldlM_cons]
    by_cases known : hierarchy.contains type = true
    · rw [subtypes_of_known known]
      refine (@ih (start.union (hierarchy.below type))).trans ?_
      simp [known, or_assoc, or_comm]
    · rw [subtypes_of_unknown known]
      constructor
      · intro failed
        cases failed
      · intro declared
        exact absurd (declared.1 type (by simp)) known

theorem subtypesOfAll_eq_ok_iff {hierarchy : Hierarchy} {types : List Iri} {found : OrderedSet Iri} :
    hierarchy.subtypesOfAll types = .ok found ↔
      (∀ type ∈ types, hierarchy.contains type = true) ∧
        ∀ lower, lower ∈ found ↔ ∃ type ∈ types, lower ∈ hierarchy.below type := by
  refine subtypesOfAll_from.trans ?_
  simp

def belowAll (hierarchy : Hierarchy) (types : List Iri) : OrderedSet Iri :=
  types.foldl (fun found type => found.union (hierarchy.below type)) ∅

theorem mem_belowAll {hierarchy : Hierarchy} {types : List Iri} {lower : Iri} :
    lower ∈ hierarchy.belowAll types ↔ ∃ type ∈ types, lower ∈ hierarchy.below type := by
  have gathered (start : OrderedSet Iri) :
      lower ∈ types.foldl (fun found type => found.union (hierarchy.below type)) start ↔
        lower ∈ start ∨ ∃ type ∈ types, lower ∈ hierarchy.below type := by
    induction types generalizing start with
    | nil => simp
    | cons first rest ih => simp [ih, or_assoc, or_comm]
  simp [belowAll, gathered]

theorem subtypesOfAll_of_known {hierarchy : Hierarchy} {types : List Iri}
    (known : ∀ type ∈ types, hierarchy.contains type = true) :
    hierarchy.subtypesOfAll types = .ok (hierarchy.belowAll types) :=
  subtypesOfAll_eq_ok_iff.mpr ⟨known, fun _ => mem_belowAll⟩

theorem subtypesOfAll_of_unknown {hierarchy : Hierarchy} {types : List Iri} {type : Iri}
    (member : type ∈ types) (unknown : ¬hierarchy.contains type = true) :
    ∃ error, hierarchy.subtypesOfAll types = .error error := by
  cases outcome : hierarchy.subtypesOfAll types with
  | error error => exact ⟨error, rfl⟩
  | ok found => exact absurd ((subtypesOfAll_eq_ok_iff.mp outcome).1 type member) unknown

structure Within (small large : Hierarchy) : Prop where
  types : ∀ type ∈ small.types, type ∈ large.types
  edges : ∀ edge ∈ small.edges, edge ∈ large.edges

theorem Within.contains {small large : Hierarchy} (within : small.Within large) {type : Iri}
    (known : small.contains type = true) : large.contains type = true :=
  contains_iff.mpr (within.types type (contains_iff.mp known))

theorem Within.below {small large : Hierarchy} (within : small.Within large) {type lower : Iri}
    (found : lower ∈ small.below type) : lower ∈ large.below type :=
  mem_below.mpr
    (Relation.ReflTransGen.mono (fun _ _ edge => within.edges _ edge) _ _ (mem_below.mp found))

end Hierarchy
end PlanGraph
