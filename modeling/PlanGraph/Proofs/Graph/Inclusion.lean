import PlanGraph.Proofs.Graph.Marks

/-! The marks of paths. A path leaves marks on the tree of its seeds, on the steps that beginnings of its
labels spell, and at its end, where its pattern is known by some name. -/

set_option autoImplicit false
namespace PlanGraph

/-- The labels of a path: its properties, closed by a leaf. Where the pattern asserts no type, the leaf
stands for the last property. -/
def PlannedPath.labels (path : PlannedPath) (pattern : TriplePattern) : List StepLabel :=
  let properties := path.steps.map fun step => StepLabel.property step.property
  if pattern.assertedType?.isSome then properties ++ [.leaf]
  else if path.steps = [] then []
  else properties.dropLast ++ [.leaf]

def PlannedPath.types (path : PlannedPath) (pattern : TriplePattern) : List Iri :=
  path.steps.map PathStep.type ++ pattern.assertedType?.toList

theorem PlannedPath.labels_closed (path : PlannedPath) (pattern : TriplePattern) :
    path.labels pattern = [] ∨
      ∃ names : List Iri, path.labels pattern = names.map StepLabel.property ++ [.leaf] := by
  unfold labels
  split
  · exact Or.inr ⟨path.steps.map PathStep.property, by simp⟩
  · split
    · exact Or.inl rfl
    · exact Or.inr ⟨(path.steps.map PathStep.property).dropLast,
        by simp [List.map_dropLast, Function.comp_def]⟩

theorem PlannedPath.labels_eq_of_leaf {path : PlannedPath} {pattern : TriplePattern}
    {word : List StepLabel} (short : word ++ [.leaf] <+: path.labels pattern) :
    path.labels pattern = word ++ [.leaf] := by
  rcases path.labels_closed pattern with empty | ⟨names, closed⟩
  · rw [empty, List.prefix_nil] at short
    simp at short
  · rw [closed] at short ⊢
    rcases List.prefix_concat_iff.mp short with whole | inner
    · exact whole.symm
    · have leaf := inner.subset (List.mem_append_right word List.mem_cons_self)
      simp at leaf

theorem labelWord_labels (asserted : Option Iri) (steps : List PathStep) :
    (labelWord asserted steps).map (·.1) =
      if asserted.isSome then (steps.map fun step => StepLabel.property step.property) ++ [.leaf]
      else if steps = [] then []
      else (steps.map fun step => StepLabel.property step.property).dropLast ++ [.leaf] := by
  induction steps with
  | nil => cases asserted <;> rfl
  | cons step rest ih =>
    cases rest with
    | nil => cases asserted <;> rfl
    | cons next others =>
      rw [labelWord, List.map_cons, ih]
      · cases asserted <;> simp
      · simp

theorem labelWord_types (asserted : Option Iri) (steps : List PathStep) :
    (labelWord asserted steps).map (·.2) = steps.map PathStep.type ++ asserted.toList := by
  induction steps with
  | nil => cases asserted <;> rfl
  | cons step rest ih =>
    cases rest with
    | nil => cases asserted <;> rfl
    | cons next others =>
      rw [labelWord, List.map_cons, ih]
      · rfl
      · simp

/-- A path to include, with the pattern it serves, its starting type and the cycles it goes through. -/
structure Inclusion where
  pattern : TriplePattern
  path : PlannedPath
  fromType : Iri
  cycles : OrderedSet CycleId

namespace Inclusion

def fingerprint (inclusion : Inclusion) : Fingerprint := PlanGraph.fingerprint inclusion.path.seeds

def labels (inclusion : Inclusion) : List StepLabel := inclusion.path.labels inclusion.pattern

def types (inclusion : Inclusion) : List Iri := inclusion.path.types inclusion.pattern

def Checks (inclusion : Inclusion) : Prop :=
  inclusion.pattern.assertedType?.isSome = true ∧ inclusion.path.check = some true

section
variable {Pattern : Type}

def LeavesOnTree (inclusion : Inclusion) (called : Pattern) : TreeMark Pattern → Prop
  | .present => True
  | .source type => type = inclusion.fromType
  | .seed seed => seed ∈ inclusion.path.seeds
  | .cycle cycle => cycle ∈ inclusion.cycles
  | .pattern pattern => inclusion.labels = [] ∧ pattern = called

/-- The marks that a path leaves on the step that a beginning of its labels spells. -/
def LeavesOnStep (inclusion : Inclusion) (called : Pattern) (word : List StepLabel) :
    StepMark Pattern → Prop
  | .present => True
  | .type type => inclusion.types[word.length - 1]? = some type
  | .pattern pattern => word = inclusion.labels ∧ pattern = called
  | .check value => word = inclusion.labels ∧ inclusion.Checks ∧ value = true
  | .start _ => False

def Leaves (inclusion : Inclusion) (called : Pattern) : Mark Pattern → Prop
  | .tree fingerprint mark => inclusion.fingerprint = fingerprint ∧ inclusion.LeavesOnTree called mark
  | .step place mark => inclusion.fingerprint = place.fingerprint ∧ place.word ≠ [] ∧
      place.word <+: inclusion.labels ∧ inclusion.LeavesOnStep called place.word mark

end
end Inclusion

section
variable {Pattern : Type}

def TrailMark (trail : List (Place × Iri)) (mark : Mark Pattern) : Prop :=
  ∃ visited ∈ trail, mark = .step visited.1 .present ∨ mark = .step visited.1 (.type visited.2)

theorem trailMark_present_iff {trail : List (Place × Iri)} {place : Place} :
    TrailMark trail (.step place .present : Mark Pattern) ↔ ∃ type, (place, type) ∈ trail := by
  simp [TrailMark]

theorem trailMark_type_iff {trail : List (Place × Iri)} {place : Place} {type : Iri} :
    TrailMark trail (.step place (.type type) : Mark Pattern) ↔ (place, type) ∈ trail := by
  simp [TrailMark]

/-- The mark of a pattern at a place, which is a tree where no label leads further. -/
def patternMark (place : Place) (pattern : Pattern) : Mark Pattern :=
  if place.word = [] then .tree place.fingerprint (.pattern pattern) else .step place (.pattern pattern)

theorem step_ne_patternMark {place finish : Place} {mark : StepMark Pattern} (pattern : Pattern)
    (other : ∀ pattern, mark ≠ .pattern pattern) : .step place mark ≠ patternMark finish pattern := by
  unfold patternMark
  split <;> simp [other]

def EntryMark (inclusion : Inclusion) (mark : TreeMark Pattern) : Prop :=
  mark = .source inclusion.fromType ∨ (∃ seed ∈ inclusion.path.seeds, mark = .seed seed) ∨
    ∃ cycle, cycle ∈ inclusion.cycles ∧ mark = .cycle cycle

end

def Place.trail (place : Place) : List (StepLabel × Iri) → List (Place × Iri)
  | [] => []
  | (label, type) :: rest => (place.below label, type) :: (place.below label).trail rest

theorem Place.mem_trail {place visited : Place} {word : List (StepLabel × Iri)} {type : Iri} :
    (visited, type) ∈ place.trail word ↔ ∃ start, start ≠ [] ∧ start <+: word.map (·.1) ∧
      visited = place.along start ∧ (word.map (·.2))[start.length - 1]? = some type := by
  induction word generalizing place with
  | nil =>
    simp only [trail, List.not_mem_nil, List.map_nil, false_iff]
    rintro ⟨start, nonempty, short, _⟩
    exact nonempty (List.prefix_nil.mp short)
  | cons first rest ih =>
    obtain ⟨label, expected⟩ := first
    rw [trail, List.mem_cons, ih]
    constructor
    · rintro (same | ⟨start, nonempty, short, rfl, found⟩)
      · cases same
        exact ⟨[label], by simp, by simp, by simp [Place.along_cons], rfl⟩
      · refine ⟨label :: start, by simp, by simpa using short, (Place.along_cons ..).symm, ?_⟩
        obtain ⟨next, others, rfl⟩ := List.exists_cons_of_ne_nil nonempty
        simpa using found
    · rintro ⟨start, nonempty, short, rfl, found⟩
      obtain ⟨next, others, rfl⟩ := List.exists_cons_of_ne_nil nonempty
      obtain ⟨rfl, inner⟩ := List.cons_prefix_cons.mp short
      rw [Place.along_cons]
      cases others with
      | nil => exact Or.inl (by simpa [eq_comm] using found)
      | cons next others => exact Or.inr ⟨next :: others, by simp, inner, rfl, by simpa using found⟩

def Inclusion.steps (inclusion : Inclusion) : List (StepLabel × Iri) :=
  labelWord inclusion.pattern.assertedType? inclusion.path.steps

theorem Inclusion.steps_labels (inclusion : Inclusion) : inclusion.steps.map (·.1) = inclusion.labels := by
  rw [steps, labelWord_labels]
  rfl

theorem Inclusion.steps_types (inclusion : Inclusion) : inclusion.steps.map (·.2) = inclusion.types := by
  rw [steps, labelWord_types]
  rfl

def Inclusion.finish (inclusion : Inclusion) : Place := ⟨inclusion.fingerprint, inclusion.labels⟩

theorem Inclusion.labels_ne_nil {inclusion : Inclusion} (checks : inclusion.Checks) :
    inclusion.labels ≠ [] := by
  simp [labels, PlannedPath.labels, checks.1]

theorem Inclusion.mem_trail {inclusion : Inclusion} {place : Place} {type : Iri} :
    (place, type) ∈ (Place.root inclusion.fingerprint).trail inclusion.steps ↔
      inclusion.fingerprint = place.fingerprint ∧ place.word ≠ [] ∧ place.word <+: inclusion.labels ∧
        inclusion.types[place.word.length - 1]? = some type := by
  rw [Place.mem_trail, inclusion.steps_labels, inclusion.steps_types]
  constructor
  · rintro ⟨start, nonempty, short, rfl, found⟩
    exact ⟨rfl, nonempty, short, found⟩
  · rintro ⟨same, nonempty, short, found⟩
    exact ⟨place.word, nonempty, short, by rw [same]; rfl, found⟩

theorem Inclusion.exists_type {inclusion : Inclusion} {word : List StepLabel} (nonempty : word ≠ [])
    (short : word <+: inclusion.labels) : ∃ type, inclusion.types[word.length - 1]? = some type := by
  have bound : word.length ≤ inclusion.types.length := by
    have same := congrArg List.length inclusion.steps_labels
    rw [List.length_map] at same
    rw [← inclusion.steps_types, List.length_map, same]
    exact short.length_le
  have positive := List.length_pos_iff.mpr nonempty
  exact ⟨_, List.getElem?_eq_getElem (by omega)⟩

/-- A path ends at a step exactly if it passes by it and its whole word leads there. -/
theorem Inclusion.ends_iff {inclusion : Inclusion} {place : Place} :
    (inclusion.fingerprint = place.fingerprint ∧ place.word ≠ [] ∧ place.word <+: inclusion.labels ∧
      place.word = inclusion.labels) ↔ inclusion.labels ≠ [] ∧ place = inclusion.finish := by
  obtain ⟨fingerprint, word⟩ := place
  simp only [finish, Place.mk.injEq]
  constructor
  · rintro ⟨same, nonempty, _, whole⟩
    exact ⟨whole ▸ nonempty, same.symm, whole⟩
  · rintro ⟨nonempty, same, whole⟩
    exact ⟨same.symm, whole ▸ nonempty, whole ▸ List.prefix_rfl, whole⟩

section
variable {Pattern : Type}

theorem Inclusion.leaves_present_iff {inclusion : Inclusion} {called : Pattern} {place : Place} :
    inclusion.Leaves called (.step place .present) ↔
      TrailMark ((Place.root inclusion.fingerprint).trail inclusion.steps)
        (.step place .present : Mark Pattern) := by
  rw [trailMark_present_iff]
  simp only [mem_trail, Leaves, LeavesOnStep, and_true]
  constructor
  · rintro ⟨same, nonempty, short⟩
    obtain ⟨type, found⟩ := exists_type nonempty short
    exact ⟨type, same, nonempty, short, found⟩
  · rintro ⟨type, same, nonempty, short, _⟩
    exact ⟨same, nonempty, short⟩

theorem Inclusion.leaves_pattern_iff {inclusion : Inclusion} {called pattern : Pattern} {place : Place} :
    inclusion.Leaves called (.step place (.pattern pattern)) ↔
      (.step place (.pattern pattern) : Mark Pattern) = patternMark inclusion.finish called := by
  have marked : (.step place (.pattern pattern) : Mark Pattern) = patternMark inclusion.finish called ↔
      (inclusion.labels ≠ [] ∧ place = inclusion.finish) ∧ pattern = called := by
    by_cases empty : inclusion.labels = [] <;> simp [patternMark, finish, empty]
  rw [marked, ← ends_iff]
  simp only [Leaves, LeavesOnStep, and_assoc]

theorem Inclusion.leaves_check_iff {inclusion : Inclusion} {called : Pattern} {place : Place}
    {value : Bool} : inclusion.Leaves called (.step place (.check value)) ↔
      inclusion.Checks ∧ place = inclusion.finish ∧ value = true := by
  have ends : inclusion.Leaves called (.step place (.check value)) ↔
      (inclusion.labels ≠ [] ∧ place = inclusion.finish) ∧ inclusion.Checks ∧ value = true := by
    rw [← ends_iff]
    simp only [Leaves, LeavesOnStep, and_assoc]
  rw [ends]
  constructor
  · rintro ⟨⟨_, here⟩, checks, required⟩
    exact ⟨checks, here, required⟩
  · rintro ⟨checks, here, required⟩
    exact ⟨⟨labels_ne_nil checks, here⟩, checks, required⟩

theorem Inclusion.leaves_iff (inclusion : Inclusion) (called : Pattern) (mark : Mark Pattern) :
    inclusion.Leaves called mark ↔
      (mark = .tree inclusion.fingerprint .present ∨
        ∃ treeMark, mark = .tree inclusion.fingerprint treeMark ∧ EntryMark inclusion treeMark) ∨
      TrailMark ((Place.root inclusion.fingerprint).trail inclusion.steps) mark ∨
      mark = patternMark inclusion.finish called ∨
      (inclusion.Checks ∧ mark = .step inclusion.finish (.check true)) := by
  cases mark with
  | tree fingerprint mark =>
    by_cases ends : inclusion.labels = [] <;>
      cases mark <;> simp [Leaves, LeavesOnTree, EntryMark, TrailMark, patternMark, finish, ends, eq_comm]
  | step place mark =>
    -- No mark of a step is left on a tree, so only the later alternatives are open.
    simp only [reduceCtorEq, false_and, exists_false, or_false, false_or]
    cases mark with
    | present => simp [leaves_present_iff, step_ne_patternMark]
    | type type =>
      rw [trailMark_type_iff, mem_trail]
      simp [Leaves, LeavesOnStep, step_ne_patternMark]
    | pattern pattern => simp [leaves_pattern_iff, TrailMark]
    | check value => simp [leaves_check_iff, step_ne_patternMark, TrailMark]
    | start cycle => simp [Leaves, LeavesOnStep, step_ne_patternMark, TrailMark]

end
end PlanGraph
