import PlanGraph.Graph.Nursery
import PlanGraph.Proofs.Graph.Growth

/-! Nurseries of forests whose links fit together. The tables number fingerprints and keys in their order,
so looking up a number in them finds what the forest itself has there, and including paths keeps it so. -/

set_option autoImplicit false
namespace PlanGraph

def Nursery.ofForest (forest : Forest) : Nursery :=
  ⟨forest, forest.fingerprints.zipIdx, forest.keys.zipIdx⟩

namespace Forest

theorem sameLinks_addPattern (forest : Forest) (node : ChainNode) (pattern : PatternId) :
    SameLinks forest (forest.addPattern node pattern) := by
  cases node with
  | tree id => exact sameLinks_modifyTree forest id (fun _ => rfl) fun _ => rfl
  | step id => exact sameLinks_modifyStep forest id (fun _ => rfl) fun _ => rfl

theorem sameLinks_requireCheck (forest : Forest) (node : ChainNode) :
    SameLinks forest (forest.requireCheck node) := by
  cases node with
  | tree id => exact ⟨rfl, rfl, fun _ => rfl⟩
  | step id => exact sameLinks_modifyStep forest id (fun _ => rfl) fun _ => rfl

end Forest

namespace Nursery
variable {forest : Forest} {node : ChainNode} {place : Place}

@[simp] theorem forest_ofForest (forest : Forest) : (ofForest forest).forest = forest := rfl

theorem lookup_trees (links : forest.Linked) (fingerprint : Fingerprint) :
    (ofForest forest).trees.lookup fingerprint = forest.treeWith? fingerprint :=
  Option.ext fun _ =>
    (lookup_zipIdx_eq_some links.fingerprints_nodup).trans links.treeWith?_eq_some.symm

theorem lookup_steps (links : forest.Linked) (node : ChainNode) (label : StepLabel) :
    (ofForest forest).steps.lookup (node, label) = forest.child? node label :=
  Option.ext fun _ => (lookup_zipIdx_eq_some links.keys_nodup).trans links.child?_eq_some.symm

theorem onForest_ofForest (change : Forest → Forest) (same : forest.SameLinks (change forest)) :
    (ofForest forest).onForest change = ofForest (change forest) := by
  unfold onForest ofForest
  rw [same.fingerprints, same.keys]

theorem plant_ofForest (links : forest.Linked) (fingerprint : Fingerprint) :
    (ofForest forest).plant fingerprint =
      (ofForest (forest.plant fingerprint).1, (forest.plant fingerprint).2) := by
  unfold plant
  rw [lookup_trees links]
  cases found : forest.treeWith? fingerprint with
  | some id => rw [Forest.plant_of_some found]
  | none =>
    rw [Forest.plant_of_none found, ofForest, ofForest, Forest.fingerprints_withTree, List.zipIdx_append,
      Forest.length_fingerprints]
    simp only [List.zipIdx_singleton, Nat.zero_add]
    rfl

theorem grow_ofForest (links : forest.Linked) (node : ChainNode) (label : StepLabel) :
    (ofForest forest).grow node label =
      (ofForest (forest.grow node label).1, (forest.grow node label).2) := by
  unfold grow
  rw [lookup_steps links]
  cases found : forest.child? node label with
  | some id => rw [Forest.grow_of_some found]
  | none =>
    rw [Forest.grow_of_none found, ofForest, ofForest, Forest.keys_withChild, List.zipIdx_append,
      Forest.fingerprints_withChild, Forest.length_keys]
    simp only [List.zipIdx_singleton, Nat.zero_add]
    rfl

theorem descend_ofForest (links : forest.Linked) (here : forest.At node place)
    (word : List (StepLabel × Iri)) :
    (ofForest forest).descend node word =
        (ofForest (forest.descend node word).1, (forest.descend node word).2) ∧
      (forest.descend node word).1.Linked := by
  -- A step can be grown below a node that stands somewhere, so the place goes along with the word.
  induction word generalizing forest node place with
  | nil => exact ⟨rfl, links⟩
  | cons letter rest ih =>
    obtain ⟨label, type⟩ := letter
    have grown : Forest.Grown forest (place.below label) (forest.grow node label) := links.grow here
    have typed : Forest.SameLinks (forest.grow node label).1
        ((forest.grow node label).1.modifyStep (forest.grow node label).2 (·.expect type)) :=
      Forest.sameLinks_modifyStep _ _ (fun _ => rfl) fun _ => rfl
    rw [descend, grow_ofForest links]
    dsimp only
    rw [onForest_ofForest _ typed]
    exact ih (typed.linked grown.links) (typed.at_iff.mpr grown.here)

/-- Including a path keeps the tables in order, and the forest is the one that is made without tables. -/
theorem includePath_ofForest (links : forest.Linked) (id : PatternId) (pattern : TriplePattern)
    (cycles : List CycleId) (path : PlannedPath) (fromType : Iri) :
    (ofForest forest).includePath id pattern cycles path fromType =
        ofForest (forest.includePath id pattern cycles path fromType) ∧
      (forest.includePath id pattern cycles path fromType).Linked := by
  -- Tables grow with planting and descending only; entering and finishing keep all links.
  have planted : Forest.Planted forest (fingerprint path.seeds) (forest.plant (fingerprint path.seeds)) :=
    links.plant
  have entered : Forest.SameLinks (forest.plant (fingerprint path.seeds)).1
      ((forest.plant (fingerprint path.seeds)).1.modifyTree (forest.plant (fingerprint path.seeds)).2
        (·.enterPath path fromType cycles)) :=
    Forest.sameLinks_modifyTree _ _ (fun _ => rfl) fun _ => rfl
  have finished (forest : Forest) (last : ChainNode) : Forest.SameLinks forest
      (if pattern.assertedType?.isSome ∧ path.check = some true then
        (forest.addPattern last id).requireCheck last else forest.addPattern last id) := by
    split
    · exact (forest.sameLinks_addPattern last id).trans (Forest.sameLinks_requireCheck _ last)
    · exact forest.sameLinks_addPattern last id
  obtain ⟨descended, kept⟩ := descend_ofForest (entered.linked planted.links)
    (entered.at_iff.mpr (.tree planted.here)) (labelWord pattern.assertedType? path.steps)
  unfold includePath
  rw [plant_ofForest links]
  dsimp only
  rw [onForest_ofForest _ entered, descended]
  dsimp only
  rw [onForest_ofForest _ (finished _ _)]
  exact ⟨rfl, (finished _ _).linked kept⟩

end Nursery
end PlanGraph
