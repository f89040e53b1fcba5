import PlanGraph.OrderedMap

/-! What the finite sets and maps hold after each operation, and lists of computations that may
fail. -/

set_option autoImplicit false
namespace PlanGraph

namespace OrderedSet
variable {α : Type} [LT α]

@[simp] theorem not_mem_none (value : α) : ¬value ∈ (∅ : OrderedSet α) := not_mem_empty value

@[simp] theorem mem_singleton {value member : α} :
    member ∈ OrderedSet.singleton value ↔ member = value := by
  simp [OrderedSet.singleton, mem_def]

theorem isEmpty_iff {set : OrderedSet α} : set.isEmpty = true ↔ ∀ value, ¬value ∈ set := by
  obtain ⟨elements, increasing⟩ := set
  cases elements with
  | nil => simp [isEmpty, mem_def]
  | cons first rest =>
    simp only [isEmpty, List.isEmpty_cons, Bool.false_eq_true, false_iff]
    exact fun none => none first List.mem_cons_self

theorem isEmpty_eq_false_iff {set : OrderedSet α} : set.isEmpty = false ↔ ∃ value, value ∈ set := by
  rw [← Bool.not_eq_true, isEmpty_iff, Classical.not_forall_not]

theorem filter_true (set : OrderedSet α) : (set.filter fun _ => true) = set := by
  have same : set.elements.filter (fun _ => true) = set.elements :=
    List.filter_eq_self.mpr fun _ _ => rfl
  simp only [filter, same]

theorem filter_filter (set : OrderedSet α) (first second : α → Bool) :
    (set.filter first).filter second = set.filter fun value => first value && second value := by
  simp only [filter, List.filter_filter, Bool.and_comm]

theorem eq_of_elements {first second : OrderedSet α} (same : first.elements = second.elements) :
    first = second := by
  cases first
  cases second
  cases same
  rfl

theorem nodup [LE α] [Std.LawfulOrderLT α] (set : OrderedSet α) : set.elements.Nodup := by
  refine set.increasing.imp fun {first second} before equal => ?_
  exact Std.Irrefl.irrefl second (equal ▸ before)

end OrderedSet

namespace OrderedMap
variable {κ β : Type}

variable [LT κ]

theorem contains_iff [DecidableEq κ] {map : OrderedMap κ β} {key : κ} :
    map.contains key = true ↔ ∃ value, map.find? key = some value := by
  simp [contains, Option.isSome_iff_exists]

theorem filter_true (map : OrderedMap κ β) : (map.filter fun _ => true) = map := by
  have same : map.entries.filter (fun _ => true) = map.entries :=
    List.filter_eq_self.mpr fun _ _ => rfl
  simp only [filter, same]

theorem filter_filter (map : OrderedMap κ β) (first second : κ × β → Bool) :
    (map.filter first).filter second = map.filter fun entry => first entry && second entry := by
  simp only [filter, List.filter_filter, Bool.and_comm]

variable [LE κ] [Std.LawfulOrderLT κ]

theorem lookupIn_of_mem [DecidableEq κ] {key : κ} {value : β} {list : List (κ × β)}
    (increasing : list.Pairwise fun first second => first.1 < second.1)
    (member : (key, value) ∈ list) : lookupIn key list = some value := by
  induction list with
  | nil => cases member
  | cons first rest ih =>
    have parts := List.pairwise_cons.mp increasing
    rcases List.mem_cons.mp member with same | later
    · simp [← same, lookupIn]
    · have before : first.1 < key := parts.1 _ later
      have differs : key ≠ first.1 := by
        rintro rfl
        exact Std.Irrefl.irrefl first.1 before
      simpa only [lookupIn, differs, if_false] using ih parts.2 later

theorem mem_entries [DecidableEq κ] {map : OrderedMap κ β} {key : κ} {value : β} :
    (key, value) ∈ map.entries ↔ map.find? key = some value :=
  ⟨lookupIn_of_mem map.increasing, mem_of_lookupIn⟩

theorem find?_filter [DecidableEq κ] {map : OrderedMap κ β} {keep : κ × β → Bool} {key : κ}
    {value : β} :
    (map.filter keep).find? key = some value ↔ map.find? key = some value ∧ keep (key, value) = true := by
  rw [← mem_entries, ← mem_entries]
  exact List.mem_filter

theorem nodup_of_increasing {list : List (κ × β)}
    (increasing : list.Pairwise fun first second => first.1 < second.1) : list.Nodup := by
  refine increasing.imp fun {first second} before equal => ?_
  exact Std.Irrefl.irrefl second.1 (equal ▸ before)

theorem keys_nodup (map : OrderedMap κ β) : (map.entries.map Prod.fst).Nodup := by
  refine List.pairwise_map.mpr (map.increasing.imp fun {first second} before equal => ?_)
  exact Std.Irrefl.irrefl second.1 (equal ▸ before)

variable [Std.IsLinearOrder κ]

theorem entries_eq_of_mem {first second : List (κ × β)}
    (firstIncreasing : first.Pairwise fun first second => first.1 < second.1)
    (secondIncreasing : second.Pairwise fun first second => first.1 < second.1)
    (same : ∀ entry, entry ∈ first ↔ entry ∈ second) : first = second := by
  have listed := (List.perm_ext_iff_of_nodup (nodup_of_increasing firstIncreasing)
    (nodup_of_increasing secondIncreasing)).mpr same
  refine List.Perm.eq_of_pairwise (fun left right _ _ before after => ?_) firstIncreasing
    secondIncreasing listed
  exact absurd (Std.lt_trans before after) (Std.Irrefl.irrefl left.1)

theorem ext [DecidableEq κ] {first second : OrderedMap κ β}
    (same : ∀ key, first.find? key = second.find? key) : first = second := by
  have listed : first.entries = second.entries := by
    refine entries_eq_of_mem first.increasing second.increasing ?_
    rintro ⟨key, value⟩
    rw [mem_entries, mem_entries, same key]
  cases first
  cases second
  cases listed
  rfl

theorem find?_ofList [DecidableEq κ] [DecidableLT κ] (bindings : List (κ × β)) (key : κ) :
    (ofList bindings).find? key = bindings.reverse.lookup key := by
  rw [ofList, List.foldl_eq_foldr_reverse]
  induction bindings.reverse with
  | nil => rfl
  | cons binding rest ih =>
    rw [List.foldr_cons, find?_insert, ih, List.lookup_cons]
    cases same : key == binding.1 with
    | true => rw [if_pos (beq_iff_eq.mp same)]
    | false => rw [if_neg (beq_eq_false_iff_ne.mp same)]

end OrderedMap

theorem getElem?_concat_eq_some {α : Type} {list : List α} {last value : α} {place : Nat} :
    (list ++ [last])[place]? = some value ↔
      list[place]? = some value ∨ place = list.length ∧ last = value := by
  rw [List.getElem?_append]
  split
  · rename_i inside
    have differs : place ≠ list.length := Nat.ne_of_lt inside
    simp [differs]
  · rename_i outside
    have absent : list[place]? = none := List.getElem?_eq_none (Nat.le_of_not_lt outside)
    have same : place - list.length = 0 ↔ place = list.length := by omega
    simp [absent, List.getElem?_singleton, same]

theorem getElem?_modify_eq_ite {α : Type} {list : List α} {place other : Nat} {change : α → α} :
    (list.modify place change)[other]? =
      if place = other then list[other]?.map change else list[other]? := by
  rw [List.getElem?_modify]
  by_cases same : place = other <;> simp [same]

theorem map_modify_of_eq {α β : Type} {list : List α} {place : Nat} {change : α → α} {view : α → β}
    (kept : ∀ value, view (change value) = view value) :
    (list.modify place change).map view = list.map view := by
  refine List.ext_getElem? fun other => ?_
  rw [List.getElem?_map, List.getElem?_map, getElem?_modify_eq_ite]
  split
  · cases list[other]? with
    | none => rfl
    | some value => exact congrArg some (kept value)
  · rfl

theorem findIdx?_key_eq_some {α β : Type} [DecidableEq β] {list : List α} {view : α → β} {key : β}
    {place : Nat} (nodup : (list.map view).Nodup) :
    (list.findIdx? fun value => view value == key) = some place ↔ (list.map view)[place]? = some key := by
  rw [List.findIdx?_eq_some_iff_getElem]
  constructor
  · rintro ⟨bound, same, _⟩
    rw [List.getElem?_map, List.getElem?_eq_getElem bound]
    exact congrArg some (by simpa using same)
  · intro found
    have bound : place < list.length := by simpa using (List.getElem?_eq_some_iff.mp found).1
    rw [List.getElem?_map, List.getElem?_eq_getElem bound, Option.map_some, Option.some.injEq] at found
    refine ⟨bound, by simpa using found, fun other before again => ?_⟩
    have otherBound := Nat.lt_trans before bound
    -- An earlier place with the key would repeat it.
    have equal : (list.map view)[other]? = (list.map view)[place]? := by
      rw [List.getElem?_map, List.getElem?_map, List.getElem?_eq_getElem bound,
        List.getElem?_eq_getElem otherBound, Option.map_some, Option.map_some, found]
      exact congrArg some (by simpa using again)
    exact Nat.ne_of_lt before ((List.getElem?_inj (by simpa using otherBound) nodup).mp equal)

theorem mem_of_lookup_eq_some {κ β : Type} [DecidableEq κ] {list : List (κ × β)} {key : κ} {value : β}
    (found : list.lookup key = some value) : (key, value) ∈ list := by
  obtain ⟨before, after, whole, _⟩ := List.lookup_eq_some_iff.mp found
  rw [whole]
  exact List.mem_append_right before List.mem_cons_self

theorem lookup_zipIdx {α : Type} [BEq α] [LawfulBEq α] (list : List α) (value : α) (start : Nat) :
    (list.zipIdx start).lookup value = if value ∈ list then some (start + list.idxOf value) else none := by
  induction list generalizing start with
  | nil => rfl
  | cons first rest ih =>
    rw [List.zipIdx_cons, List.lookup_cons, ih, List.idxOf_cons]
    by_cases same : value = first
    · simp [same]
    · have differs : ¬first = value := fun equal => same equal.symm
      simp [same, differs, beq_false_of_ne, Nat.add_assoc, Nat.add_comm 1]

theorem lookup_zipIdx_eq_some {α : Type} [BEq α] [LawfulBEq α] {list : List α} (nodup : list.Nodup)
    {value : α} {place : Nat} : list.zipIdx.lookup value = some place ↔ list[place]? = some value := by
  rw [lookup_zipIdx, Nat.zero_add]
  constructor
  · intro found
    split at found
    · next known =>
      cases found
      rw [List.getElem?_eq_getElem (List.idxOf_lt_length_of_mem known), List.getElem_idxOf]
    · cases found
  · intro there
    obtain ⟨bound, rfl⟩ := List.getElem?_eq_some_iff.mp there
    rw [if_pos (List.getElem_mem bound), nodup.idxOf_getElem]
theorem filter_eq_toList_find? {α : Type} {list : List α} {test : α → Bool} (nodup : list.Nodup)
    (single : ∀ first ∈ list, ∀ second ∈ list, test first = true → test second = true → first = second) :
    list.filter test = (list.find? test).toList := by
  induction list with
  | nil => rfl
  | cons first rest ih =>
    have parts := List.nodup_cons.mp nodup
    rw [List.filter_cons, List.find?_cons]
    cases passes : test first with
    | true =>
      -- Whatever passes later is the first element again.
      have others : rest.filter test = [] := by
        refine List.filter_eq_nil_iff.mpr fun second later again => parts.1 ?_
        rw [single first (by simp) second (by simp [later]) passes again]
        exact later
      simp [others]
    | false =>
      simpa using ih parts.2 fun second later third last =>
        single second (by simp [later]) third (by simp [last])

theorem exists_ok {α ε : Type} {result : Except ε α} (succeeds : result.isOk = true) :
    ∃ value, result = .ok value := by
  cases result with
  | error failure => cases succeeds
  | ok value => exact ⟨value, rfl⟩

section
variable {α β ε : Type} {compute : α → Except ε β} {inputs : List α}

theorem mapM_eq_ok_map {outcome : α → β}
    (succeeds : ∀ input ∈ inputs, compute input = .ok (outcome input)) :
    inputs.mapM compute = .ok (inputs.map outcome) := by
  induction inputs with
  | nil => rfl
  | cons first rest ih =>
    rw [List.mapM_cons, succeeds first (by simp), ih fun input later => succeeds input (by simp [later])]
    rfl

theorem mapM_eq_error {input : α} (member : input ∈ inputs) (failure : ε)
    (fails : compute input = .error failure) : ∃ failure, inputs.mapM compute = .error failure := by
  induction inputs with
  | nil => cases member
  | cons first rest ih =>
    rw [List.mapM_cons]
    cases head : compute first with
    | error failure => exact ⟨failure, rfl⟩
    | ok output =>
      rcases List.mem_cons.mp member with rfl | later
      · rw [head] at fails
        cases fails
      · obtain ⟨failure, tail⟩ := ih later
        exact ⟨failure, by rw [tail]; rfl⟩

theorem mapM_append_error {before after : List α} {input : α} {failure : ε}
    (succeeds : ∀ earlier ∈ before, ∃ output, compute earlier = .ok output)
    (fails : compute input = .error failure) :
    (before ++ input :: after).mapM compute = .error failure := by
  induction before with
  | nil =>
    rw [List.nil_append, List.mapM_cons, fails]
    rfl
  | cons first rest ih =>
    obtain ⟨⟨output, computed⟩, later⟩ := List.forall_mem_cons.mp succeeds
    rw [List.cons_append, List.mapM_cons, computed, ih later]
    rfl

theorem bind_eq_ok {result : Except ε α} {next : α → Except ε β} {output : β} :
    (result >>= next) = .ok output ↔ ∃ value, result = .ok value ∧ next value = .ok output := by
  cases result with
  | error failure => simp [bind, Except.bind]
  | ok value => simp [bind, Except.bind]

theorem map_eq_ok {result : Except ε α} {view : α → β} {output : β} :
    result.map view = .ok output ↔ ∃ value, result = .ok value ∧ view value = output := by
  cases result with
  | error failure => simp [Except.map]
  | ok value => simp [Except.map]

theorem mapError_eq_ok {γ : Type} {result : Except γ β} {change : γ → ε} {output : β} :
    result.mapError change = .ok output ↔ result = .ok output := by
  constructor
  · intro same
    cases result <;> cases same
    rfl
  · rintro rfl
    rfl

theorem exists_input_of_mapM {outputs : List β} (succeeds : inputs.mapM compute = .ok outputs)
    {output : β} (member : output ∈ outputs) : ∃ input ∈ inputs, compute input = .ok output := by
  induction inputs generalizing outputs with
  | nil =>
    cases succeeds
    cases member
  | cons first rest ih =>
    rw [List.mapM_cons] at succeeds
    obtain ⟨value, head, succeeds⟩ := bind_eq_ok.mp succeeds
    obtain ⟨values, tail, succeeds⟩ := bind_eq_ok.mp succeeds
    cases succeeds
    rcases List.mem_cons.mp member with rfl | later
    · exact ⟨first, List.mem_cons_self, head⟩
    · obtain ⟨input, inside, computed⟩ := ih tail later
      exact ⟨input, List.mem_cons_of_mem _ inside, computed⟩

end
end PlanGraph
