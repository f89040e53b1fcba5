/-! Finite sets kept as strictly increasing lists: a set has one listing, so two sets with the
same members are equal. -/

set_option autoImplicit false
namespace PlanGraph

/-- A finite set of an ordered type, listed in increasing order. -/
structure OrderedSet (α : Type) [LT α] where
  elements : List α
  increasing : elements.Pairwise (· < ·)
deriving DecidableEq

namespace OrderedSet
variable {α : Type} [LT α] [LE α] [Std.IsLinearOrder α] [Std.LawfulOrderLT α] [DecidableLT α]

def empty {α : Type} [LT α] : OrderedSet α := ⟨[], .nil⟩

instance {α : Type} [LT α] : EmptyCollection (OrderedSet α) := ⟨empty⟩
instance {α : Type} [LT α] : Inhabited (OrderedSet α) := ⟨empty⟩
instance {α : Type} [LT α] : Membership α (OrderedSet α) := ⟨fun set value => value ∈ set.elements⟩

instance {α : Type} [LT α] [DecidableEq α] (set : OrderedSet α) (value : α) :
    Decidable (value ∈ set) :=
  inferInstanceAs (Decidable (value ∈ set.elements))

theorem mem_def {α : Type} [LT α] {set : OrderedSet α} {value : α} :
    value ∈ set ↔ value ∈ set.elements := Iff.rfl

def singleton {α : Type} [LT α] (value : α) : OrderedSet α := ⟨[value], by simp⟩

def insertInto (value : α) : List α → List α
  | [] => [value]
  | first :: rest =>
    if value < first then value :: first :: rest
    else if first < value then first :: insertInto value rest
    else first :: rest

omit [LE α] [Std.IsLinearOrder α] [Std.LawfulOrderLT α] in
theorem mem_insertInto_imp {value member : α} {list : List α}
    (found : member ∈ insertInto value list) : member = value ∨ member ∈ list := by
  induction list with
  | nil => simpa [insertInto] using found
  | cons first rest ih =>
    simp only [insertInto] at found
    split at found
    · simpa using found
    · split at found
      · rcases List.mem_cons.mp found with same | later
        · simp [same]
        · rcases ih later with same | inside <;> simp [*]
      · exact Or.inr found

theorem mem_insertInto {value member : α} {list : List α} :
    member ∈ insertInto value list ↔ member = value ∨ member ∈ list := by
  refine ⟨mem_insertInto_imp, ?_⟩
  induction list with
  | nil => simp [insertInto]
  | cons first rest ih =>
    intro found
    simp only [insertInto]
    split
    · simpa using found
    · rename_i notBefore
      split
      · rcases found with same | inside
        · exact List.mem_cons_of_mem _ (ih (Or.inl same))
        · rcases List.mem_cons.mp inside with same | later
          · simp [same]
          · exact List.mem_cons_of_mem _ (ih (Or.inr later))
      · rename_i notAfter
        -- Neither before nor after the first element: the order leaves only equality.
        have same : value = first := by
          rcases Std.lt_trichotomy value first with before | equal | after
          · exact absurd before notBefore
          · exact equal
          · exact absurd after notAfter
        rcases found with equal | inside
        · simp [equal, same]
        · exact inside

theorem increasing_insertInto {value : α} {list : List α} (increasing : list.Pairwise (· < ·)) :
    (insertInto value list).Pairwise (· < ·) := by
  induction list with
  | nil => simp [insertInto]
  | cons first rest ih =>
    have parts := List.pairwise_cons.mp increasing
    simp only [insertInto]
    split
    · rename_i before
      refine List.pairwise_cons.mpr ⟨fun member found => ?_, increasing⟩
      rcases List.mem_cons.mp found with same | later
      · exact same ▸ before
      · exact Std.lt_trans before (parts.1 member later)
    · split
      · rename_i after
        refine List.pairwise_cons.mpr ⟨fun member found => ?_, ih parts.2⟩
        rcases mem_insertInto_imp found with same | later
        · exact same ▸ after
        · exact parts.1 member later
      · exact increasing

def insert (set : OrderedSet α) (value : α) : OrderedSet α :=
  ⟨insertInto value set.elements, increasing_insertInto set.increasing⟩

def insertAll (set : OrderedSet α) (values : List α) : OrderedSet α :=
  values.foldl insert set

def ofList (values : List α) : OrderedSet α := empty.insertAll values

def union (first second : OrderedSet α) : OrderedSet α := first.insertAll second.elements

def filter {α : Type} [LT α] (set : OrderedSet α) (keep : α → Bool) : OrderedSet α :=
  ⟨set.elements.filter keep, set.increasing.filter _⟩

def erase {α : Type} [LT α] [DecidableEq α] (set : OrderedSet α) (value : α) : OrderedSet α :=
  set.filter (· ≠ value)

def contains {α : Type} [LT α] [DecidableEq α] (set : OrderedSet α) (value : α) : Bool :=
  decide (value ∈ set)

def isEmpty {α : Type} [LT α] (set : OrderedSet α) : Bool := set.elements.isEmpty

def meets {α : Type} [LT α] [DecidableEq α] (first second : OrderedSet α) : Bool :=
  first.elements.any (second.contains ·)

@[simp] theorem not_mem_empty {α : Type} [LT α] (value : α) : ¬value ∈ (empty : OrderedSet α) := by
  simp [mem_def, empty]

@[simp] theorem mem_insert {set : OrderedSet α} {value member : α} :
    member ∈ set.insert value ↔ member = value ∨ member ∈ set := mem_insertInto

@[simp] theorem mem_insertAll {set : OrderedSet α} {values : List α} {member : α} :
    member ∈ set.insertAll values ↔ member ∈ values ∨ member ∈ set := by
  induction values generalizing set with
  | nil => simp [insertAll]
  | cons first rest ih =>
    have step : set.insertAll (first :: rest) = (set.insert first).insertAll rest := rfl
    rw [step, ih, mem_insert, List.mem_cons]
    constructor
    · rintro (later | same | inside)
      · exact Or.inl (Or.inr later)
      · exact Or.inl (Or.inl same)
      · exact Or.inr inside
    · rintro ((same | later) | inside)
      · exact Or.inr (Or.inl same)
      · exact Or.inl later
      · exact Or.inr (Or.inr inside)

@[simp] theorem mem_ofList {values : List α} {member : α} :
    member ∈ ofList values ↔ member ∈ values := by
  simp [ofList]

@[simp] theorem mem_union {first second : OrderedSet α} {member : α} :
    member ∈ first.union second ↔ member ∈ second ∨ member ∈ first := by
  simp [union, @mem_def α _ second]

@[simp] theorem mem_filter {α : Type} [LT α] {set : OrderedSet α} {keep : α → Bool} {member : α} :
    member ∈ set.filter keep ↔ member ∈ set ∧ keep member = true := by
  simp [mem_def, filter]

@[simp] theorem mem_erase {α : Type} [LT α] [DecidableEq α] {set : OrderedSet α}
    {value member : α} : member ∈ set.erase value ↔ member ∈ set ∧ member ≠ value := by
  simp [erase]

@[simp] theorem contains_iff {α : Type} [LT α] [DecidableEq α] {set : OrderedSet α} {value : α} :
    set.contains value = true ↔ value ∈ set := by
  simp [contains]

theorem meets_iff {α : Type} [LT α] [DecidableEq α] {first second : OrderedSet α} :
    first.meets second = true ↔ ∃ value, value ∈ first ∧ value ∈ second := by
  simp [meets, @mem_def α _ first]

omit [DecidableLT α] in
theorem elements_eq_of_mem {first second : List α} (firstIncreasing : first.Pairwise (· < ·))
    (secondIncreasing : second.Pairwise (· < ·))
    (same : ∀ value, value ∈ first ↔ value ∈ second) : first = second := by
  induction first generalizing second with
  | nil =>
    cases second with
    | nil => rfl
    | cons head tail => exact absurd ((same head).mpr (by simp)) (by simp)
  | cons head tail ih =>
    cases second with
    | nil => exact absurd ((same head).mp (by simp)) (by simp)
    | cons otherHead otherTail =>
      have parts := List.pairwise_cons.mp firstIncreasing
      have otherParts := List.pairwise_cons.mp secondIncreasing
      -- Each head is the least element of its list and a member of the other.
      have heads : head = otherHead := by
        rcases List.mem_cons.mp ((same head).mp (by simp)) with equal | later
        · exact equal
        · rcases List.mem_cons.mp ((same otherHead).mpr (by simp)) with equal | earlier
          · exact equal.symm
          · exact absurd (Std.lt_trans (otherParts.1 _ later) (parts.1 _ earlier))
              (Std.Irrefl.irrefl otherHead)
      subst heads
      refine congrArg _ (ih parts.2 otherParts.2 fun value => ?_)
      constructor
      · intro member
        rcases List.mem_cons.mp ((same value).mp (List.mem_cons_of_mem _ member)) with equal | later
        · exact absurd (parts.1 value member) (equal ▸ Std.Irrefl.irrefl value)
        · exact later
      · intro member
        rcases List.mem_cons.mp ((same value).mpr (List.mem_cons_of_mem _ member)) with equal | later
        · exact absurd (otherParts.1 value member) (equal ▸ Std.Irrefl.irrefl value)
        · exact later

omit [DecidableLT α] in
theorem ext {first second : OrderedSet α} (same : ∀ value, value ∈ first ↔ value ∈ second) :
    first = second := by
  obtain ⟨elements, increasing⟩ := first
  obtain ⟨otherElements, otherIncreasing⟩ := second
  simp only [OrderedSet.mk.injEq]
  exact elements_eq_of_mem increasing otherIncreasing same

end OrderedSet
end PlanGraph
