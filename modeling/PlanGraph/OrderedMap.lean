import PlanGraph.OrderedSet

/-! Finite maps kept as lists of bindings with strictly increasing keys. -/

set_option autoImplicit false
namespace PlanGraph

/-- A finite map from an ordered type, listed by increasing key. -/
structure OrderedMap (κ : Type) [LT κ] (β : Type) where
  entries : List (κ × β)
  increasing : entries.Pairwise (fun first second => first.1 < second.1)
deriving DecidableEq

namespace OrderedMap
variable {κ β : Type} [LT κ] [LE κ] [Std.IsLinearOrder κ] [Std.LawfulOrderLT κ] [DecidableLT κ]

def empty {κ β : Type} [LT κ] : OrderedMap κ β := ⟨[], .nil⟩

instance {κ β : Type} [LT κ] : EmptyCollection (OrderedMap κ β) := ⟨empty⟩
instance {κ β : Type} [LT κ] : Inhabited (OrderedMap κ β) := ⟨empty⟩

def lookupIn {κ β : Type} [DecidableEq κ] (key : κ) : List (κ × β) → Option β
  | [] => none
  | first :: rest => if key = first.1 then some first.2 else lookupIn key rest

def find? {κ β : Type} [LT κ] [DecidableEq κ] (map : OrderedMap κ β) (key : κ) : Option β :=
  lookupIn key map.entries

def contains {κ β : Type} [LT κ] [DecidableEq κ] (map : OrderedMap κ β) (key : κ) : Bool :=
  (map.find? key).isSome

def insertInto (key : κ) (value : β) : List (κ × β) → List (κ × β)
  | [] => [(key, value)]
  | first :: rest =>
    if key < first.1 then (key, value) :: first :: rest
    else if first.1 < key then first :: insertInto key value rest
    else (key, value) :: rest

omit [LE κ] [Std.IsLinearOrder κ] [Std.LawfulOrderLT κ] in
theorem key_of_mem_insertInto {key : κ} {value : β} {list : List (κ × β)} {entry : κ × β}
    (found : entry ∈ insertInto key value list) : entry.1 = key ∨ entry ∈ list := by
  induction list with
  | nil => simp [insertInto] at found; exact Or.inl (congrArg Prod.fst found)
  | cons first rest ih =>
    simp only [insertInto] at found
    split at found
    · rcases List.mem_cons.mp found with same | inside
      · exact Or.inl (congrArg Prod.fst same)
      · exact Or.inr inside
    · split at found
      · rcases List.mem_cons.mp found with same | later
        · simp [same]
        · rcases ih later with same | inside
          · exact Or.inl same
          · exact Or.inr (List.mem_cons_of_mem _ inside)
      · rcases List.mem_cons.mp found with same | later
        · exact Or.inl (congrArg Prod.fst same)
        · exact Or.inr (List.mem_cons_of_mem _ later)

omit [DecidableLT κ] in
theorem key_unique {key : κ} {first : κ × β} (notBefore : ¬key < first.1)
    (notAfter : ¬first.1 < key) : first.1 = key := by
  rcases Std.lt_trichotomy key first.1 with before | equal | after
  · exact absurd before notBefore
  · exact equal.symm
  · exact absurd after notAfter

theorem increasing_insertInto {key : κ} {value : β} {list : List (κ × β)}
    (increasing : list.Pairwise (fun first second => first.1 < second.1)) :
    (insertInto key value list).Pairwise (fun first second => first.1 < second.1) := by
  induction list with
  | nil => simp [insertInto]
  | cons first rest ih =>
    have parts := List.pairwise_cons.mp increasing
    simp only [insertInto]
    split
    · rename_i before
      refine List.pairwise_cons.mpr ⟨fun entry found => ?_, increasing⟩
      rcases List.mem_cons.mp found with same | later
      · exact same ▸ before
      · exact Std.lt_trans before (parts.1 entry later)
    · split
      · rename_i after
        refine List.pairwise_cons.mpr ⟨fun entry found => ?_, ih parts.2⟩
        rcases key_of_mem_insertInto found with same | later
        · exact same ▸ after
        · exact parts.1 entry later
      · rename_i notBefore notAfter
        have same := key_unique notBefore notAfter
        exact List.pairwise_cons.mpr ⟨fun entry found => same ▸ parts.1 entry found, parts.2⟩

def insert (map : OrderedMap κ β) (key : κ) (value : β) : OrderedMap κ β :=
  ⟨insertInto key value map.entries, increasing_insertInto map.increasing⟩

def ofList (entries : List (κ × β)) : OrderedMap κ β :=
  entries.foldl (fun map entry => map.insert entry.1 entry.2) empty

def filter {κ β : Type} [LT κ] (map : OrderedMap κ β) (keep : κ × β → Bool) : OrderedMap κ β :=
  ⟨map.entries.filter keep, map.increasing.filter _⟩

def isEmpty {κ β : Type} [LT κ] (map : OrderedMap κ β) : Bool := map.entries.isEmpty

def values {κ β : Type} [LT κ] (map : OrderedMap κ β) : List β := map.entries.map (·.2)

def keys {κ β : Type} [LT κ] (map : OrderedMap κ β) : OrderedSet κ :=
  ⟨map.entries.map (·.1), List.pairwise_map.mpr map.increasing⟩

@[simp] theorem find?_empty {κ β : Type} [LT κ] [DecidableEq κ] (key : κ) :
    (empty : OrderedMap κ β).find? key = none := rfl

theorem mem_of_lookupIn {κ β : Type} [DecidableEq κ] {key : κ} {value : β} {list : List (κ × β)}
    (found : lookupIn key list = some value) : (key, value) ∈ list := by
  induction list with
  | nil => cases found
  | cons first rest ih =>
    unfold lookupIn at found
    split at found
    · rename_i same
      cases found
      exact List.mem_cons.mpr (Or.inl (Prod.ext same rfl))
    · exact List.mem_cons_of_mem _ (ih found)

theorem lookupIn_insertInto [DecidableEq κ] {key other : κ} {value : β} {list : List (κ × β)} :
    lookupIn other (insertInto key value list) =
      if other = key then some value else lookupIn other list := by
  induction list with
  | nil => simp [insertInto, lookupIn]
  | cons first rest ih =>
    simp only [insertInto]
    split
    · simp [lookupIn]
    · split
      · rename_i after
        have differs : first.1 ≠ key := fun equal => Std.Irrefl.irrefl key (equal ▸ after)
        simp only [lookupIn, ih]
        by_cases same : other = first.1 <;> simp [same, differs]
      · rename_i notBefore notAfter
        simp only [lookupIn, key_unique notBefore notAfter]
        by_cases same : other = key <;> simp [same]

@[simp] theorem find?_insert [DecidableEq κ] {map : OrderedMap κ β} {key other : κ} {value : β} :
    (map.insert key value).find? other = if other = key then some value else map.find? other :=
  lookupIn_insertInto

end OrderedMap
end PlanGraph
