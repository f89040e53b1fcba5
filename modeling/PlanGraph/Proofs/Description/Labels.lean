import Mathlib.Data.List.Basic
import PlanGraph.Graph.Description

/-! The labels of blank nodes. A label is a stem for the kind of the node and a suffix that tells the
nodes of the kind apart, so different nodes have different labels. -/

set_option autoImplicit false
namespace PlanGraph

/-- What kind of thing a description is about; the steps of a cycle belong to the cycle. -/
inductive NodeKind
  | space
  | variable
  | pattern
  | literal
  | tree
  | step
  | cycle
deriving DecidableEq, Repr

def NodeKind.stem : NodeKind → String
  | .space => "space_"
  | .variable => "var_"
  | .pattern => "tp_"
  | .literal => "lit_"
  | .tree => "tree_"
  | .step => "step_"
  | .cycle => "cycle_"

theorem NodeKind.two_le_length (kind : NodeKind) : 2 ≤ kind.stem.toList.length := by
  cases kind <;> decide

/-- Two characters tell the stems apart. -/
theorem NodeKind.eq_of_take {first second : NodeKind}
    (same : first.stem.toList.take 2 = second.stem.toList.take 2) : first = second := by
  cases first <;> cases second <;> first | rfl | exact absurd same (by decide)

namespace Node

def kind : Node → NodeKind
  | .space _ => .space
  | .variable _ => .variable
  | .pattern _ => .pattern
  | .literal _ => .literal
  | .tree _ => .tree
  | .step _ => .step
  | .cycle _ => .cycle
  | .cycleStep .. => .cycle

def suffix : Node → String
  | .space index => toString index
  | .variable name => name
  | .pattern id => toString id
  | .literal index => toString index
  | .tree fingerprint => fingerprint
  | .step id => toString id
  | .cycle index => toString index
  | .cycleStep index position => toString index ++ "_" ++ toString position

theorem label_eq (node : Node) : node.label = node.kind.stem ++ node.suffix := by
  cases node with
  | cycleStep index position => simp [label, kind, NodeKind.stem, suffix, String.append_assoc]
  | _ => rfl

theorem take_label (node : Node) : node.label.toList.take 2 = node.kind.stem.toList.take 2 := by
  rw [label_eq, String.toList_append, List.take_append_of_le_length node.kind.two_le_length]

theorem kind_of_label {first second : Node} (same : first.label = second.label) :
    first.kind = second.kind := by
  apply NodeKind.eq_of_take
  rw [← take_label, same, take_label]

theorem toString_injective {first second : Nat} (same : toString first = toString second) :
    first = second := by
  have digits := congrArg (fun text : String => Nat.ofDigitChars 10 text.toList 0) same
  simpa [Nat.toString_eq_repr, Nat.toList_repr] using digits

theorem underscore_not_mem (number : Nat) : '_' ∉ (toString number).toList := by
  intro member
  rw [Nat.toString_eq_repr, Nat.toList_repr] at member
  exact Nat.underscore_not_in_toDigits member

theorem cycleStep_suffix (index position : Nat) : (cycleStep index position).suffix.toList =
    (toString index).toList ++ '_' :: (toString position).toList := by
  simp [suffix]

/-- Only the suffixes of the steps of cycles have an underscore after digits. -/
theorem suffix_cycle_ne (index other position : Nat) :
    (cycle index).suffix ≠ (cycleStep other position).suffix := by
  intro same
  have member : '_' ∈ (cycle index).suffix.toList := by
    rw [same, cycleStep_suffix]
    simp
  exact underscore_not_mem index member

theorem label_injective : Function.Injective label := by
  intro first second same
  have kinds := kind_of_label same
  have suffixes : first.suffix = second.suffix := by
    rw [label_eq, label_eq, kinds] at same
    exact (String.append_right_inj _).mp same
  cases first with
  | space index =>
    cases second <;> cases kinds
    exact congrArg space (toString_injective suffixes)
  | «variable» name =>
    cases second <;> cases kinds
    exact congrArg Node.variable suffixes
  | pattern id =>
    cases second <;> cases kinds
    exact congrArg pattern (toString_injective suffixes)
  | literal index =>
    cases second <;> cases kinds
    exact congrArg literal (toString_injective suffixes)
  | tree fingerprint =>
    cases second <;> cases kinds
    exact congrArg tree suffixes
  | step id =>
    cases second <;> cases kinds
    exact congrArg step (toString_injective suffixes)
  -- A cycle and a step of a cycle have labels of one stem.
  | cycle index =>
    cases second with
    | cycle other => exact congrArg cycle (toString_injective suffixes)
    | cycleStep other position => exact absurd suffixes (suffix_cycle_ne index other position)
    | _ => cases kinds
  | cycleStep index position =>
    cases second with
    | cycle other => exact absurd suffixes.symm (suffix_cycle_ne other index position)
    | cycleStep other last =>
      have characters := congrArg String.toList suffixes
      rw [cycleStep_suffix, cycleStep_suffix] at characters
      obtain ⟨indices, _, positions⟩ := (List.append_cons_inj_of_notMem (underscore_not_mem index)
        (underscore_not_mem position)).mp characters
      rw [toString_injective (String.toList_inj.mp indices),
        toString_injective (String.toList_inj.mp positions)]
    | _ => cases kinds

@[simp] theorem term_inj {first second : Node} : first.term = second.term ↔ first = second := by
  constructor
  · intro same
    exact label_injective (Rdf.Term.blank.inj same)
  · exact congrArg term

end Node
end PlanGraph
