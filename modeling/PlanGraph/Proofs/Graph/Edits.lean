import PlanGraph.Graph.Basic
import PlanGraph.Proofs.Collections

/-! Edits of all steps or all trees by their numbers. Loops that modify one step or one tree after another
come down to a single such edit. -/

set_option autoImplicit false
namespace PlanGraph

theorem modify_eq_mapIdx {α : Type} (list : List α) (place : Nat) (change : α → α) :
    list.modify place change =
      list.mapIdx fun number value => if number = place then change value else value := by
  refine List.ext_getElem? fun number => ?_
  rw [getElem?_modify_eq_ite, List.getElem?_mapIdx]
  by_cases same : place = number
  · simp [same]
  · simp [same, Ne.symm same]

theorem mapIdx_congr {α β : Type} {list : List α} {change other : Nat → α → β}
    (same : ∀ number value, list[number]? = some value → change number value = other number value) :
    list.mapIdx change = list.mapIdx other := by
  refine List.ext_getElem? fun number => ?_
  rw [List.getElem?_mapIdx, List.getElem?_mapIdx]
  cases found : list[number]? with
  | none => rfl
  | some value => exact congrArg some (same number value found)

theorem mapIdx_const {α β : Type} (list : List α) (change : α → β) :
    (list.mapIdx fun _ => change) = list.map change := by
  refine List.ext_getElem? fun number => ?_
  rw [List.getElem?_mapIdx, List.getElem?_map]

namespace Graph

def withSteps (graph : Graph) (change : StepId → Step → Step) : Graph :=
  { graph with forest := { graph.forest with steps := graph.forest.steps.mapIdx change } }

def withTrees (graph : Graph) (change : TreeId → SearchTree → SearchTree) : Graph :=
  { graph with forest := { graph.forest with trees := graph.forest.trees.mapIdx change } }

section
variable {graph : Graph} {change other : StepId → Step → Step}

theorem getElem?_withSteps {id : StepId} :
    (graph.withSteps change).forest.steps[id]? = graph.forest.steps[id]?.map (change id) :=
  List.getElem?_mapIdx

theorem withSteps_congr (same : ∀ (id : StepId) (step : Step), graph.forest.steps[id]? = some step →
    change id step = other id step) : graph.withSteps change = graph.withSteps other := by
  rw [withSteps, withSteps, mapIdx_congr same]

theorem withSteps_unchanged (same : ∀ (id : StepId) (step : Step), graph.forest.steps[id]? = some step →
    change id step = step) : graph.withSteps change = graph := by
  rw [withSteps_congr same, withSteps, mapIdx_const, List.map_id']

theorem withSteps_withSteps : (graph.withSteps change).withSteps other =
    graph.withSteps fun id step => other id (change id step) := by
  simp only [withSteps, List.mapIdx_mapIdx]
  rfl

theorem modifyStep_eq (id : StepId) (edit : Step → Step) :
    { graph with forest := graph.forest.modifyStep id edit } =
      graph.withSteps fun number step => if number = id then edit step else step := by
  rw [withSteps, Forest.modifyStep, modify_eq_mapIdx]

end
end Graph
end PlanGraph
