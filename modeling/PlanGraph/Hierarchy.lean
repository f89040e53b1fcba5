import PlanGraph.OrderedMap
import PlanGraph.Rdf.Iri

/-! Type hierarchies: the known types with their direct neighbours, and the closures of the subtype
relation. The relation may run in circles. -/

set_option autoImplicit false
namespace PlanGraph

structure TypeEntry where
  sub : OrderedSet Iri
  sup : OrderedSet Iri
deriving DecidableEq

def TypeEntry.isolated : TypeEntry := ⟨∅, ∅⟩

structure Hierarchy where
  entries : OrderedMap Iri TypeEntry
deriving DecidableEq

structure UnknownType where
  type : Iri
deriving DecidableEq, Repr

def UnknownType.message (error : UnknownType) : String :=
  "The type <" ++ error.type ++ "> is not known to the fountain"

namespace Hierarchy

def empty : Hierarchy := ⟨∅⟩

def types (hierarchy : Hierarchy) : OrderedSet Iri := hierarchy.entries.keys

def contains (hierarchy : Hierarchy) (type : Iri) : Bool := hierarchy.entries.contains type

/-- Declares a type. One that is known keeps its neighbours. -/
def addType (hierarchy : Hierarchy) (type : Iri) : Hierarchy :=
  if hierarchy.contains type then hierarchy else ⟨hierarchy.entries.insert type .isolated⟩

def changeEntry (hierarchy : Hierarchy) (type : Iri) (change : TypeEntry → TypeEntry) : Hierarchy :=
  ⟨hierarchy.entries.insert type (change ((hierarchy.entries.find? type).getD .isolated))⟩

def addSubtype (hierarchy : Hierarchy) (subtype supertype : Iri) : Hierarchy :=
  let lower := hierarchy.changeEntry supertype fun entry =>
    { entry with sub := entry.sub.insert subtype }
  lower.changeEntry subtype fun entry => { entry with sup := entry.sup.insert supertype }

def neighbours (hierarchy : Hierarchy) (side : TypeEntry → OrderedSet Iri) (type : Iri) :
    OrderedSet Iri :=
  (hierarchy.entries.find? type).elim ∅ side

def neighbourhood (hierarchy : Hierarchy) (side : TypeEntry → OrderedSet Iri) : List Iri :=
  hierarchy.entries.values.flatMap fun entry => (side entry).elements

theorem mem_neighbourhood {hierarchy : Hierarchy} {side : TypeEntry → OrderedSet Iri} {type next : Iri}
    (member : next ∈ (hierarchy.neighbours side type).elements) :
    next ∈ hierarchy.neighbourhood side := by
  unfold neighbours at member
  cases found : hierarchy.entries.find? type with
  | none => simp [found, EmptyCollection.emptyCollection, OrderedSet.empty] at member
  | some entry =>
    have listed := OrderedMap.mem_of_lookupIn found
    refine List.mem_flatMap.mpr ⟨entry, List.mem_map.mpr ⟨_, listed, rfl⟩, ?_⟩
    simpa [found] using member

/-- A walk through a hierarchy: the types it has found, and those of them it has not left yet, the
last one found first. -/
structure Walk where
  found : OrderedSet Iri
  pending : List Iri

namespace Walk

def start (type : Iri) : Walk := ⟨.singleton type, [type]⟩

/-- Comes to a type. Only a new one has to be left again. -/
def meet (walk : Walk) (type : Iri) : Walk :=
  if walk.found.contains type then walk else ⟨walk.found.insert type, type :: walk.pending⟩

/-- How many types are left to find among some, and to go on from. -/
def effort (among : List Iri) (walk : Walk) : Nat :=
  walk.pending.length + (among.filter fun type => !walk.found.contains type).length

theorem effort_meet_le {among : List Iri} {walk : Walk} {type : Iri} (member : type ∈ among) :
    (walk.meet type).effort among ≤ walk.effort among := by
  unfold meet
  split
  · exact Nat.le_refl _
  · rename_i new
    -- A new type has to be gone on from, but it does not have to be found any more.
    have fewer : (among.filter fun other => !(walk.found.insert type).contains other).length <
        (among.filter fun other => !walk.found.contains other).length := by
      have narrower : (among.filter fun other => !(walk.found.insert type).contains other) =
          (among.filter fun other => !walk.found.contains other).filter (· ≠ type) := by
        rw [List.filter_filter]
        refine List.filter_congr fun other _ => ?_
        by_cases same : other = type <;> simp [OrderedSet.contains, same]
      rw [narrower]
      refine List.length_filter_lt_length_iff_exists.mpr ⟨type, ?_, by simp⟩
      exact List.mem_filter.mpr ⟨member, by simp [Bool.eq_false_iff.mpr new]⟩
    simp only [effort, List.length_cons]
    omega

theorem effort_meetAll_le {among types : List Iri} (members : ∀ type ∈ types, type ∈ among)
    (walk : Walk) : (types.foldl meet walk).effort among ≤ walk.effort among := by
  induction types generalizing walk with
  | nil => exact Nat.le_refl _
  | cons first rest ih =>
    obtain ⟨head, tail⟩ := List.forall_mem_cons.mp members
    exact Nat.le_trans (ih tail (walk.meet first)) (effort_meet_le head)

end Walk

def visit (hierarchy : Hierarchy) (side : TypeEntry → OrderedSet Iri) (walk : Walk) (type : Iri) :
    Walk :=
  (hierarchy.neighbours side type).elements.foldl Walk.meet walk

theorem effort_visit_le {hierarchy : Hierarchy} {side : TypeEntry → OrderedSet Iri} {walk : Walk}
    {type : Iri} : (hierarchy.visit side walk type).effort (hierarchy.neighbourhood side) ≤
      walk.effort (hierarchy.neighbourhood side) :=
  Walk.effort_meetAll_le (fun _ => mem_neighbourhood) walk

/-- The types that a walk finds on one side. Leaving a type costs some of the effort, so the walk
ends even if it runs in circles. -/
def reachable (hierarchy : Hierarchy) (side : TypeEntry → OrderedSet Iri) (walk : Walk) :
    OrderedSet Iri :=
  match _left : walk.pending with
  | [] => walk.found
  | current :: rest =>
    reachable hierarchy side (hierarchy.visit side { walk with pending := rest } current)
termination_by walk.effort (hierarchy.neighbourhood side)
decreasing_by
  refine Nat.lt_of_le_of_lt effort_visit_le ?_
  simp [Walk.effort, _left]

def closure (hierarchy : Hierarchy) (side : TypeEntry → OrderedSet Iri) (type : Iri) :
    Except UnknownType (OrderedSet Iri) :=
  if hierarchy.contains type then .ok (hierarchy.reachable side (.start type)) else .error ⟨type⟩

def subtypes (hierarchy : Hierarchy) (type : Iri) : Except UnknownType (OrderedSet Iri) :=
  hierarchy.closure TypeEntry.sub type

def supertypes (hierarchy : Hierarchy) (type : Iri) : Except UnknownType (OrderedSet Iri) :=
  hierarchy.closure TypeEntry.sup type

/-- The type itself and all its direct and indirect subtypes, whether it is known or not. -/
def below (hierarchy : Hierarchy) (type : Iri) : OrderedSet Iri :=
  hierarchy.reachable TypeEntry.sub (.start type)

def subtypesOfAll (hierarchy : Hierarchy) (types : List Iri) :
    Except UnknownType (OrderedSet Iri) :=
  types.foldlM (fun found type => (hierarchy.subtypes type).map found.union) ∅

end Hierarchy
end PlanGraph
