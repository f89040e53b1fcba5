/-! Cutting a text at a separator character. -/

set_option autoImplicit false
namespace PlanGraph.Text

def splitOn (separator : Char) : List Char → List (List Char)
  | [] => [[]]
  | first :: rest =>
    if first = separator then [] :: splitOn separator rest
    else
      match splitOn separator rest with
      | [] => [[first]]
      | piece :: pieces => (first :: piece) :: pieces

/-- Cuts at the first separator, which belongs to neither half. -/
def cutAt? (separator : Char) : List Char → Option (List Char × List Char)
  | [] => none
  | first :: rest =>
    if first = separator then some ([], rest)
    else (cutAt? separator rest).map fun halves => (first :: halves.1, halves.2)

def after? {α : Type} [DecidableEq α] : List α → List α → Option (List α)
  | [], items => some items
  | _ :: _, [] => none
  | first :: lead, item :: rest => if first = item then after? lead rest else none

theorem after?_eq_some_iff {α : Type} [DecidableEq α] {lead items rest : List α} :
    after? lead items = some rest ↔ items = lead ++ rest := by
  induction lead generalizing items with
  | nil => simp [after?]
  | cons first lead ih =>
    cases items with
    | nil => simp [after?]
    | cons item items =>
      by_cases same : first = item
      · simp [after?, same, ih]
      · simp [after?, same]; exact fun equal => absurd equal.symm same

/-- Cuts before a closing part. What a backslash precedes is no part of the closing. -/
def cutAtClosing? {α : Type} [DecidableEq α] (backslash : α) (closing : List α) :
    List α → Option (List α × List α)
  | [] => none
  | first :: rest =>
    match after? closing (first :: rest) with
    | some following => some ([], following)
    | none =>
      if first = backslash then
        match rest with
        | [] => none
        | second :: rest =>
          (cutAtClosing? backslash closing rest).map fun halves =>
            (first :: second :: halves.1, halves.2)
      else
        (cutAtClosing? backslash closing rest).map fun halves => (first :: halves.1, halves.2)

def between? (opening closing : Char) (chars : List Char) : Option (List Char) :=
  match chars with
  | [] => none
  | first :: rest =>
    if first = opening ∧ rest.getLast? = some closing then some rest.dropLast else none

end PlanGraph.Text
