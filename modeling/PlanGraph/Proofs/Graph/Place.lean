import Mathlib.Data.List.Induction
import PlanGraph.Graph.Forest
import PlanGraph.Proofs.Collections

/-! The places of a forest. A step is known by the tree it belongs to and by the labels on the way
from there, whatever its number is. In a forest whose links fit together no two nodes share a place,
and following labels from child to child leads to the node at the place they spell. -/

set_option autoImplicit false
namespace PlanGraph

/-- The fingerprint of a tree and the labels on the way from its root. -/
structure Place where
  fingerprint : Fingerprint
  word : List StepLabel
deriving DecidableEq

namespace Place

def root (fingerprint : Fingerprint) : Place := ⟨fingerprint, []⟩

def below (place : Place) (label : StepLabel) : Place := ⟨place.fingerprint, place.word ++ [label]⟩

def along (place : Place) (word : List StepLabel) : Place := ⟨place.fingerprint, place.word ++ word⟩

@[simp] theorem below_inj {first second : Place} {label other : StepLabel} :
    first.below label = second.below other ↔ first = second ∧ label = other := by
  obtain ⟨fingerprint, word⟩ := first
  obtain ⟨otherFingerprint, otherWord⟩ := second
  simp [below, and_assoc]

@[simp] theorem root_ne_below (fingerprint : Fingerprint) (place : Place) (label : StepLabel) :
    root fingerprint ≠ place.below label := by
  simp [root, below]

@[simp] theorem along_nil (place : Place) : place.along [] = place := by simp [along]

theorem along_cons (place : Place) (label : StepLabel) (word : List StepLabel) :
    place.along (label :: word) = (place.below label).along word := by simp [along, below]

theorem along_concat (place : Place) (word : List StepLabel) (label : StepLabel) :
    place.along (word ++ [label]) = (place.along word).below label := by simp [along, below]

end Place

abbrev StepKey := ChainNode × StepLabel

def Step.key (step : Step) : StepKey := (step.parent, step.label)

/-- Trees come before all steps, and steps before those of higher numbers. -/
def ChainNode.Precedes (trees : Nat) (id : StepId) : ChainNode → Prop
  | .tree number => number < trees
  | .step number => number < id

/-- The place of a node, read off the fingerprints of trees and the keys of steps. -/
inductive Stands (fingerprints : List Fingerprint) (keys : List StepKey) : ChainNode → Place → Prop
  | tree {id : TreeId} {fingerprint : Fingerprint} (found : fingerprints[id]? = some fingerprint) :
      Stands fingerprints keys (.tree id) (.root fingerprint)
  | step {id : StepId} {parent : ChainNode} {label : StepLabel} {place : Place}
      (found : keys[id]? = some (parent, label)) (above : Stands fingerprints keys parent place) :
      Stands fingerprints keys (.step id) (place.below label)

def Ordered (trees : Nat) (keys : List StepKey) : Prop :=
  ∀ (id : StepId) (key : StepKey), keys[id]? = some key → key.1.Precedes trees id

namespace Stands
variable {fingerprints : List Fingerprint} {keys : List StepKey} {node other : ChainNode}
  {place otherPlace : Place}

theorem place_unique (first : Stands fingerprints keys node place)
    (second : Stands fingerprints keys node otherPlace) : place = otherPlace := by
  induction first generalizing otherPlace with
  | tree found =>
    cases second with
    | tree again => rw [Option.some.inj (found.symm.trans again)]
  | step found _ ih =>
    cases second with
    | step again above =>
      cases found.symm.trans again
      rw [ih above]

theorem node_unique (trees : fingerprints.Nodup) (steps : keys.Nodup)
    (first : Stands fingerprints keys node place) (second : Stands fingerprints keys other place) :
    node = other := by
  induction first generalizing other with
  | @tree id fingerprint found =>
    -- The place of the other node is kept open, so that both rules can be tried on it.
    generalize same : Place.root fingerprint = goal at second
    cases second with
    | tree again =>
      cases same
      have bound := (List.getElem?_eq_some_iff.mp found).1
      exact congrArg _ ((List.getElem?_inj bound trees).mp (found.trans again.symm))
    | step => exact absurd same (Place.root_ne_below _ _ _)
  | @step id parent label place found _ ih =>
    generalize same : place.below label = goal at second
    cases second with
    | tree => exact absurd same.symm (Place.root_ne_below _ _ _)
    | step again above =>
      obtain ⟨rfl, rfl⟩ := Place.below_inj.mp same
      cases ih above
      have bound := (List.getElem?_eq_some_iff.mp found).1
      exact congrArg _ ((List.getElem?_inj bound steps).mp (found.trans again.symm))

theorem extend (stands : Stands fingerprints keys node place) (newTrees : List Fingerprint)
    (newSteps : List StepKey) : Stands (fingerprints ++ newTrees) (keys ++ newSteps) node place := by
  have left : ∀ {α : Type} {list more : List α} {id : Nat} {value : α},
      list[id]? = some value → (list ++ more)[id]? = some value := fun found => by
    rw [List.getElem?_append_left (List.getElem?_eq_some_iff.mp found).1, found]
  induction stands with
  | tree found => exact .tree (left found)
  | step found _ ih => exact .step (left found) ih

theorem step_bound {id : StepId} (stands : Stands fingerprints keys (.step id) place) :
    id < keys.length := by
  cases stands with
  | step found => exact (List.getElem?_eq_some_iff.mp found).1

theorem tree_bound {id : TreeId} (stands : Stands fingerprints keys (.tree id) place) :
    id < fingerprints.length := by
  cases stands with
  | tree found => exact (List.getElem?_eq_some_iff.mp found).1

theorem of_add_tree {fingerprint : Fingerprint} (ordered : Ordered fingerprints.length keys)
    (stands : Stands (fingerprints ++ [fingerprint]) keys node place) :
    Stands fingerprints keys node place ∨
      node = .tree fingerprints.length ∧ place = .root fingerprint := by
  induction stands with
  | tree found =>
    rcases getElem?_concat_eq_some.mp found with old | ⟨rfl, rfl⟩
    · exact Or.inl (.tree old)
    · exact Or.inr ⟨rfl, rfl⟩
  | step found _ ih =>
    rcases ih with above | ⟨rfl, _⟩
    · exact Or.inl (.step found above)
    · exact absurd (ordered _ _ found) (Nat.lt_irrefl _)

theorem of_add_step {parent : ChainNode} {label : StepLabel}
    (ordered : Ordered fingerprints.length (keys ++ [(parent, label)]))
    (stands : Stands fingerprints (keys ++ [(parent, label)]) node place) :
    Stands fingerprints keys node place ∨ node = .step keys.length ∧
      ∃ above, Stands fingerprints keys parent above ∧ place = above.below label := by
  induction stands with
  | tree found => exact Or.inl (.tree found)
  | @step id parent label place found _ ih =>
    -- A node above is never the new step: it would have to come after its own child.
    have early : parent ≠ .step keys.length := by
      rintro rfl
      have bound := (List.getElem?_eq_some_iff.mp found).1
      have before : keys.length < id := ordered _ _ found
      rw [List.length_append, List.length_singleton] at bound
      omega
    rcases ih with above | ⟨same, _⟩
    · rcases getElem?_concat_eq_some.mp found with old | ⟨rfl, same⟩
      · exact Or.inl (.step old above)
      · cases same
        exact Or.inr ⟨rfl, place, above, rfl⟩
    · exact absurd same early

theorem above {word : List StepLabel} (stands : Stands fingerprints keys node (place.along word)) :
    ∃ upper, Stands fingerprints keys upper place := by
  -- The last label of the word is that of the node, so the word is taken off from its end.
  induction word using List.reverseRecOn generalizing node with
  | nil => exact ⟨node, place.along_nil ▸ stands⟩
  | append_singleton word label ih =>
    rw [Place.along_concat] at stands
    generalize same : (place.along word).below label = goal at stands
    cases stands with
    | tree => exact absurd same.symm (Place.root_ne_below _ _ _)
    | step _ above => exact ih ((Place.below_inj.mp same).1 ▸ above)

/-- Every step has a place, since the nodes above it come before it. -/
theorem exists_place (ordered : Ordered fingerprints.length keys) {id : StepId}
    (bound : id < keys.length) : ∃ place, Stands fingerprints keys (.step id) place := by
  induction id using Nat.strongRecOn with
  | ind id ih =>
    obtain ⟨⟨parent, label⟩, found⟩ : ∃ key, keys[id]? = some key := ⟨_, List.getElem?_eq_getElem bound⟩
    have before := ordered id _ found
    cases parent with
    | tree number => exact ⟨_, .step found (.tree (List.getElem?_eq_getElem before))⟩
    | step number =>
      obtain ⟨place, above⟩ := ih number before (Nat.lt_trans before bound)
      exact ⟨_, .step found above⟩

end Stands
end PlanGraph
