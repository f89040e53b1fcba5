import PlanGraph.Graph.Finishing
import PlanGraph.Proofs.Graph.Edits
import PlanGraph.Proofs.Graph.Links

/-! Finishing without its errors. If all starting types are known, every tree and every step is finished
on its own: the promotions, made one after another, come to the same. -/

set_option autoImplicit false
namespace PlanGraph

section
variable {hierarchy : Hierarchy} {types : OrderedSet Iri}

/-- The types without a proper subtype among them, or all types if circles leave none. -/
def Hierarchy.specific (hierarchy : Hierarchy) (types : OrderedSet Iri) : OrderedSet Iri :=
  let specific := types.filter fun type =>
    !types.elements.any fun other => other != type && (hierarchy.below type).contains other
  if specific.isEmpty then types else specific

theorem Hierarchy.mostSpecific_of_known (known : ∀ type, type ∈ types → hierarchy.contains type = true) :
    hierarchy.mostSpecific types = .ok (hierarchy.specific types) := by
  have none_missing : (types.elements.find? fun type => !hierarchy.contains type) = none := by
    refine List.find?_eq_none.mpr fun type member => ?_
    simp [known type member]
  rw [mostSpecific, none_missing]
  rfl

theorem Hierarchy.mostSpecific_of_unknown {type : Iri} (member : type ∈ types)
    (unknown : ¬hierarchy.contains type = true) : ∃ error, hierarchy.mostSpecific types = .error error := by
  unfold mostSpecific
  cases missing : types.elements.find? fun type => !hierarchy.contains type with
  | some other => exact ⟨⟨other⟩, rfl⟩
  | none =>
    have passes := List.find?_eq_none.mp missing type member
    simp [unknown] at passes

end

namespace Graph

def narrowTree (hierarchy : Hierarchy) (tree : SearchTree) : SearchTree :=
  { tree with fromTypes := hierarchy.specific tree.fromTypes }

def SourcesKnown (hierarchy : Hierarchy) (trees : List SearchTree) : Prop :=
  ∀ tree ∈ trees, ∀ type, type ∈ tree.fromTypes → hierarchy.contains type = true

theorem narrowTrees_of_known {hierarchy : Hierarchy} {trees : List SearchTree}
    (known : SourcesKnown hierarchy trees) :
    narrowTrees hierarchy trees = (trees.map (narrowTree hierarchy), none) := by
  induction trees with
  | nil => rfl
  | cons tree rest ih =>
    have later : SourcesKnown hierarchy rest := fun other member => known other (by simp [member])
    rw [narrowTrees, Hierarchy.mostSpecific_of_known (known tree (by simp)), ih later]
    rfl

theorem narrowTrees_of_unknown {hierarchy : Hierarchy} {trees : List SearchTree}
    (unknown : ¬SourcesKnown hierarchy trees) :
    ∃ narrowed error, narrowTrees hierarchy trees = (narrowed, some error) := by
  induction trees with
  | nil => exact absurd (fun tree member => by cases member) unknown
  | cons tree rest ih =>
    unfold narrowTrees
    -- Either the first tree fails, or it is narrowed and a later one fails.
    by_cases known : ∀ type, type ∈ tree.fromTypes → hierarchy.contains type = true
    · have later : ¬SourcesKnown hierarchy rest := by
        intro others
        refine unknown fun other member => ?_
        rcases List.mem_cons.mp member with rfl | member
        · exact known
        · exact others other member
      obtain ⟨narrowed, error, fails⟩ := ih later
      rw [Hierarchy.mostSpecific_of_known known, fails]
      exact ⟨_, error, rfl⟩
    · simp only [Classical.not_forall] at known
      obtain ⟨type, member, missing⟩ := known
      obtain ⟨error, fails⟩ := Hierarchy.mostSpecific_of_unknown member missing
      rw [fails]
      exact ⟨_, error, rfl⟩

def narrowed (graph : Graph) (hierarchy : Hierarchy) : Graph :=
  { graph with forest := { graph.forest with trees := (narrowTrees hierarchy graph.forest.trees).1 } }

theorem finish_cases (graph : Graph) (hierarchy : Hierarchy) :
    (∃ error, (narrowTrees hierarchy graph.forest.trees).2 = some error ∧
      graph.finish hierarchy = (graph.narrowed hierarchy, some error)) ∨
    ((narrowTrees hierarchy graph.forest.trees).2 = none ∧
      graph.finish hierarchy = ((graph.narrowed hierarchy).promoteSeeds, none)) := by
  unfold finish narrowed
  rcases narrowTrees hierarchy graph.forest.trees with ⟨trees, _ | error⟩
  · exact Or.inr ⟨rfl, rfl⟩
  · exact Or.inl ⟨error, rfl, rfl⟩

section
variable (graph : Graph) (hierarchy : Hierarchy)

def gainedSeeds (tree : SearchTree) : List Iri :=
  tree.children.flatMap fun id =>
    (graph.forest.steps[id]?.map (subjectIris graph.patterns)).getD []

def finishTree (tree : SearchTree) : SearchTree :=
  { tree with
    fromTypes := hierarchy.specific tree.fromTypes
    seeds := tree.seeds.insertAll (graph.gainedSeeds tree) }

def isBelowTree (step : Step) : Bool :=
  match step.parent with
  | .tree _ => true
  | .step _ => false

def isPromoted (step : Step) : Prop := isBelowTree step = true ∧ subjectIris graph.patterns step ≠ []

instance (step : Step) : Decidable (graph.isPromoted step) :=
  inferInstanceAs (Decidable (_ ∧ _))

def finishStep (step : Step) : Step :=
  if graph.isPromoted step then { step with cycleStarts := ∅ } else step

def finished : Graph :=
  { graph with
    forest := ⟨graph.forest.trees.map (graph.finishTree hierarchy),
      graph.forest.steps.map graph.finishStep⟩ }

end

/-! Promotions one after another. -/

def gainSeeds (list : List Promotion) (id : TreeId) (tree : SearchTree) : SearchTree :=
  { tree with seeds := tree.seeds.insertAll ((list.filter (·.tree = id)).map (·.seed)) }

def stopCycles (list : List Promotion) (id : StepId) (step : Step) : Step :=
  if id ∈ list.map (·.step) then { step with cycleStarts := ∅ } else step

def promoted (graph : Graph) (list : List Promotion) : Graph :=
  (graph.withTrees (gainSeeds list)).withSteps (stopCycles list)

section
variable {graph : Graph} {hierarchy : Hierarchy}

theorem promoted_nil : graph.promoted [] = graph := by
  have trees : gainSeeds [] = fun _ tree => tree := rfl
  have steps : stopCycles [] = fun _ step => step := by
    funext id step
    simp [stopCycles]
  simp only [promoted, withTrees, withSteps, trees, steps, mapIdx_const, List.map_id']

theorem promoted_promoted (list more : List Promotion) :
    (graph.promoted list).promoted more = graph.promoted (list ++ more) := by
  have trees (id : TreeId) (tree : SearchTree) :
      gainSeeds more id (gainSeeds list id tree) = gainSeeds (list ++ more) id tree := by
    simp [gainSeeds, OrderedSet.insertAll]
  have steps (id : StepId) (step : Step) :
      stopCycles more id (stopCycles list id step) = stopCycles (list ++ more) id step := by
    by_cases first : id ∈ list.map (·.step) <;> by_cases second : id ∈ more.map (·.step) <;>
      simp [stopCycles, List.map_append, first, second, -List.mem_map]
  simp only [promoted, withTrees, withSteps, List.mapIdx_mapIdx, Function.comp_def, trees, steps]

theorem promote_eq (promotion : Promotion) : graph.promote promotion = graph.promoted [promotion] := by
  have trees : gainSeeds [promotion] = fun id tree => if id = promotion.tree then
      { tree with seeds := tree.seeds.insert promotion.seed } else tree := by
    funext id tree
    by_cases same : promotion.tree = id
    · simp [gainSeeds, OrderedSet.insertAll, same]
    · simp [gainSeeds, OrderedSet.insertAll, same, Ne.symm same]
  have steps : stopCycles [promotion] = fun id step => if id = promotion.step then
      { step with cycleStarts := ∅ } else step := by
    funext id step
    simp [stopCycles]
  simp only [promote, promoted, withTrees, withSteps, Forest.modifyTree, Forest.modifyStep,
    modify_eq_mapIdx, trees, steps]

theorem promoteAll_eq (list : List Promotion) : list.foldl promote graph = graph.promoted list := by
  induction list generalizing graph with
  | nil => exact promoted_nil.symm
  | cons first rest ih =>
    rw [List.foldl_cons, ih, promote_eq, promoted_promoted]
    rfl

theorem mem_promotions {promotion : Promotion} : promotion ∈ graph.promotions ↔
    ∃ tree, graph.forest.trees[promotion.tree]? = some tree ∧ promotion.step ∈ tree.children ∧
      ∃ step, graph.forest.steps[promotion.step]? = some step ∧
        promotion.seed ∈ subjectIris graph.patterns step := by
  have gained {child : StepId} {seed : Iri} :
      seed ∈ (graph.forest.steps[child]?.map (subjectIris graph.patterns)).getD [] ↔
        ∃ step, graph.forest.steps[child]? = some step ∧ seed ∈ subjectIris graph.patterns step := by
    cases graph.forest.steps[child]? <;> simp
  unfold promotions
  simp only [List.mem_flatMap, List.mem_map, Prod.exists, List.mem_zipIdx_iff_getElem?, gained]
  constructor
  · rintro ⟨tree, id, planted, child, below, seed, found, same⟩
    subst same
    exact ⟨tree, planted, below, found⟩
  · rintro ⟨tree, planted, below, found⟩
    exact ⟨tree, promotion.tree, planted, promotion.step, below, promotion.seed, found, rfl⟩

theorem gainSeeds_promotions {id : TreeId} {tree : SearchTree}
    (planted : graph.forest.trees[id]? = some tree) : gainSeeds graph.promotions id tree =
      { tree with seeds := tree.seeds.insertAll (graph.gainedSeeds tree) } := by
  have same : tree.seeds.insertAll ((graph.promotions.filter (·.tree = id)).map (·.seed)) =
      tree.seeds.insertAll (graph.gainedSeeds tree) := by
    refine OrderedSet.ext fun seed => ?_
    rw [OrderedSet.mem_insertAll, OrderedSet.mem_insertAll]
    refine or_congr_left ?_
    simp only [List.mem_map, List.mem_filter, decide_eq_true_eq, mem_promotions, gainedSeeds,
      List.mem_flatMap]
    constructor
    · rintro ⟨promotion, ⟨⟨other, also, below, step, found, gained⟩, here⟩, named⟩
      subst here named
      cases planted.symm.trans also
      exact ⟨promotion.step, below, by simpa [found] using gained⟩
    · rintro ⟨child, below, gained⟩
      cases found : graph.forest.steps[child]? with
      | none => simp [found] at gained
      | some step =>
        rw [found] at gained
        exact ⟨⟨id, child, seed⟩, ⟨⟨tree, planted, below, step, found, gained⟩, rfl⟩, rfl⟩
  rw [gainSeeds, same]

theorem stopCycles_promotions (links : graph.forest.Linked) {id : StepId} {step : Step}
    (found : graph.forest.steps[id]? = some step) :
    stopCycles graph.promotions id step = graph.finishStep step := by
  -- A promotion names a child of a tree, and that is a step whose parent is a tree.
  have same : id ∈ graph.promotions.map (·.step) ↔ graph.isPromoted step := by
    simp only [List.mem_map, mem_promotions]
    constructor
    · rintro ⟨promotion, ⟨tree, planted, below, other, there, gained⟩, here⟩
      subst here
      cases found.symm.trans there
      have child : promotion.step ∈ graph.forest.childrenOf (.tree promotion.tree) := by
        simpa [Forest.childrenOf, planted] using below
      obtain ⟨label, key⟩ := links.mem_childrenOf.mp child
      obtain ⟨other, again, keyed⟩ := Forest.key_at.mp key
      cases found.symm.trans again
      have parent : step.parent = .tree promotion.tree := congrArg Prod.fst keyed
      exact ⟨by simp [isBelowTree, parent], List.ne_nil_of_mem gained⟩
    · rintro ⟨top, subjects⟩
      obtain ⟨seed, gained⟩ := List.exists_mem_of_ne_nil _ subjects
      unfold isBelowTree at top
      split at top
      · next tree parent =>
        have key : graph.forest.keys[id]? = some (.tree tree, step.label) :=
          Forest.key_at.mpr ⟨step, found, by rw [Step.key, parent]⟩
        have child := links.mem_childrenOf.mpr ⟨step.label, key⟩
        cases planted : graph.forest.trees[tree]? with
        | none => simp [Forest.childrenOf, planted] at child
        | some root =>
          have below : id ∈ root.children := by simpa [Forest.childrenOf, planted] using child
          exact ⟨⟨tree, id, seed⟩, ⟨root, planted, below, step, found, gained⟩, rfl⟩
      · cases top
  unfold stopCycles finishStep
  simp only [same]

/-- The promotions, made one after another, finish every tree and every step on its own. -/
theorem promoteSeeds_eq (links : graph.forest.Linked) : graph.promoteSeeds =
    { graph with
      forest := ⟨graph.forest.trees.map fun tree =>
          { tree with seeds := tree.seeds.insertAll (graph.gainedSeeds tree) },
        graph.forest.steps.map graph.finishStep⟩ } := by
  rw [promoteSeeds, promoteAll_eq, promoted, withTrees, withSteps]
  rw [mapIdx_congr fun id tree planted => gainSeeds_promotions planted, mapIdx_const]
  rw [mapIdx_congr fun id step found => stopCycles_promotions links found, mapIdx_const]

theorem finish_of_known (links : graph.forest.Linked)
    (known : SourcesKnown hierarchy graph.forest.trees) :
    graph.finish hierarchy = (graph.finished hierarchy, none) := by
  unfold finish
  rw [narrowTrees_of_known known]
  have same : Forest.SameLinks graph.forest ⟨graph.forest.trees.map (narrowTree hierarchy),
      graph.forest.steps.map fun step => step⟩ :=
    graph.forest.sameLinks_map (fun _ => rfl) (fun _ => rfl) (fun _ => rfl) fun _ => rfl
  rw [List.map_id'] at same
  dsimp only
  rw [promoteSeeds_eq (same.linked links)]
  simp only [List.map_map]
  rfl

theorem finish_of_unknown (unknown : ¬SourcesKnown hierarchy graph.forest.trees) :
    ∃ narrowed error, graph.finish hierarchy = (narrowed, some error) := by
  obtain ⟨narrowed, error, fails⟩ := narrowTrees_of_unknown unknown
  unfold finish
  rw [fails]
  exact ⟨_, error, rfl⟩

end
end Graph
end PlanGraph
