import PlanGraph.Text.CharClass

/-! The labels of blank nodes in the text formats. The formats differ in their letters: in N-Quads a
colon is one of them, and in Turtle and TriG it is not. -/

set_option autoImplicit false
namespace PlanGraph.Rdf
open Text

/-- `PN_CHARS` over the given letters. -/
def isLabelChar (isLetter : Char → Bool) (char : Char) : Bool :=
  isLetter char || char == '-' || char.isDigit || isCombining char

/-- `BLANK_NODE_LABEL` behind its mark. Dots may stand inside a label but not at its end. -/
def IsBlankLabel (isLetter : Char → Bool) : List Char → Prop
  | [] => False
  | first :: tail => (isLetter first || first.isDigit) = true ∧
      (tail.all fun char => isLabelChar isLetter char || char == '.') = true ∧
      tail.getLast?.all (isLabelChar isLetter) = true

def isNQuadsLetter (char : Char) : Bool := isNameStart char || char == ':'

variable {isLetter : Char → Bool}

instance (label : List Char) : Decidable (IsBlankLabel isLetter label) :=
  match label with
  | [] => inferInstanceAs (Decidable False)
  | _ :: _ => inferInstanceAs (Decidable (_ ∧ _ ∧ _))

theorem isBlankLabel_cons {first : Char} {tail : List Char} (starts : isLetter first = true)
    (continues : ∀ char ∈ tail, isLabelChar isLetter char = true) : IsBlankLabel isLetter (first :: tail) :=
  ⟨by rw [starts, Bool.true_or],
    List.all_eq_true.mpr fun char inside => by rw [continues char inside, Bool.true_or],
    (Option.all_eq_true _ _).mpr fun last ends => continues last (List.mem_of_getLast? ends)⟩

/-- Letters before other characters. What follows them may hold no other characters than they may, as long as
it has no dot. -/
theorem isBlankLabel_append {stem rest : List Char} (nonempty : stem ≠ [])
    (letters : ∀ char ∈ stem, isLetter char = true) (plain : '.' ∉ rest) :
    IsBlankLabel isLetter (stem ++ rest) ↔ ∀ char ∈ rest, isLabelChar isLetter char = true := by
  cases stem with
  | nil => exact absurd rfl nonempty
  | cons first tail =>
    obtain ⟨starts, continues⟩ := List.forall_mem_cons.mp letters
    constructor
    · rintro ⟨_, allowed, _⟩ char inside
      have dotless : char ≠ '.' := fun same => plain (same ▸ inside)
      simpa [dotless] using List.all_eq_true.mp allowed char (List.mem_append_right tail inside)
    · intro allowed
      refine isBlankLabel_cons starts (List.forall_mem_append.mpr ⟨fun char inside => ?_, allowed⟩)
      simp [isLabelChar, continues char inside]

theorem isLabelChar_nQuads {char : Char} : isLabelChar isNQuadsLetter char = true ↔
    isLabelChar isNameStart char = true ∨ char = ':' := by
  by_cases colon : char = ':' <;> simp [isLabelChar, isNQuadsLetter, colon]

theorem IsBlankLabel.nonempty {label : List Char} (valid : IsBlankLabel isLetter label) : label ≠ [] := by
  rintro rfl
  exact valid

theorem IsBlankLabel.not_mem {label : List Char} {char : Char} (valid : IsBlankLabel isLetter label)
    (other : isLabelChar isLetter char = false) (plain : char ≠ '.') : char ∉ label := by
  cases label with
  | nil => exact List.not_mem_nil
  | cons first tail =>
    obtain ⟨starts, continues, _⟩ := valid
    intro inside
    rcases List.mem_cons.mp inside with rfl | later
    · simp only [isLabelChar, Bool.or_eq_false_iff, Bool.or_eq_true] at other starts
      simp [other] at starts
    · have allowed := List.all_eq_true.mp continues char later
      simp [other, plain] at allowed

end PlanGraph.Rdf
