import Mathlib.Data.List.Induction
import PlanGraph.Graph.Outline
import PlanGraph.Proofs.Collections
import PlanGraph.Proofs.Plan.TermText

/-! Compact names and the IRIs they stand for. Of the namespaces that start an IRI the longest is used,
and of the prefixes bound to it the greatest. If no prefix can be taken for a bracket or for two parts
of a name, what an outline writes for an IRI expands to that IRI again. -/

set_option autoImplicit false
namespace PlanGraph
open Text

/-! The best of some names for one IRI. -/

/-- A name of the list with the shortest rest, and the greatest prefix among those. -/
structure CompactName.IsBest (best : CompactName) (names : List CompactName) : Prop where
  member : best ∈ names
  shortest : ∀ name ∈ names, best.localName.length ≤ name.localName.length
  greatest : ∀ name ∈ names, name.localName.length = best.localName.length →
    name.namePrefix ≤ best.namePrefix

theorem CompactName.isBest_singleton (name : CompactName) : name.IsBest [name] where
  member := by simp
  shortest := by simp
  greatest := by simp [Std.le_refl]

/-- The names come in the order of their prefixes, so one that wins a tie has the greater prefix. -/
theorem CompactName.IsBest.betterName {best : CompactName} {names : List CompactName}
    (isBest : best.IsBest names) {name : CompactName}
    (after : ∀ earlier ∈ names, earlier.namePrefix < name.namePrefix) :
    ∃ better, PlanGraph.betterName (some best) name = some better ∧ better.IsBest (names ++ [name]) := by
  by_cases shorter : name.localName.length ≤ best.localName.length
  · refine ⟨name, if_pos shorter, by simp, ?_, ?_⟩
    · intro other member
      rcases List.mem_append.mp member with earlier | last
      · exact Nat.le_trans shorter (isBest.shortest other earlier)
      · obtain rfl := List.mem_singleton.mp last
        exact Nat.le_refl _
    · intro other member same
      rcases List.mem_append.mp member with earlier | last
      · exact Std.le_of_lt (after other earlier)
      · obtain rfl := List.mem_singleton.mp last
        exact Std.le_refl _
  · refine ⟨best, if_neg shorter, by simp [isBest.member], ?_, ?_⟩
    · intro other member
      rcases List.mem_append.mp member with earlier | last
      · exact isBest.shortest other earlier
      · rw [List.mem_singleton.mp last]
        omega
    · intro other member same
      rcases List.mem_append.mp member with earlier | last
      · exact isBest.greatest other earlier same
      · rw [List.mem_singleton.mp last] at same
        omega

theorem exists_isBest {names : List CompactName} (nonempty : names ≠ [])
    (increasing : names.Pairwise fun first second => first.namePrefix < second.namePrefix) :
    ∃ best, names.foldl betterName none = some best ∧ best.IsBest names := by
  induction names using List.reverseRecOn with
  | nil => exact absurd rfl nonempty
  | append_singleton init last ih =>
    obtain ⟨earlier, _, between⟩ := List.pairwise_append.mp increasing
    rw [List.foldl_concat]
    by_cases first : init = []
    · subst first
      exact ⟨last, rfl, last.isBest_singleton⟩
    · obtain ⟨best, found, isBest⟩ := ih first earlier
      rw [found]
      exact isBest.betterName fun name member => between name member last (by simp)

/-! Namespaces that start an IRI. -/

theorem utf8ByteSize_le_of_isPrefix {first second : String} (starts : first.toList <+: second.toList) :
    first.utf8ByteSize ≤ second.utf8ByteSize ∧
      (second.utf8ByteSize ≤ first.utf8ByteSize → first = second) := by
  obtain ⟨rest, whole⟩ := starts
  have parts : second = first ++ String.ofList rest :=
    String.toList_injective (by rw [String.toList_append, String.toList_ofList, whole])
  subst parts
  rw [String.utf8ByteSize_append]
  refine ⟨Nat.le_add_right _ _, fun enough => ?_⟩
  have none : (String.ofList rest).utf8ByteSize = 0 := by omega
  rw [String.utf8ByteSize_eq_zero_iff.mp none, String.append_empty]

namespace Prefixes
variable {prefixes : Prefixes} {name other space longer iri text : String}

structure Starts (prefixes : Prefixes) (iri name space : String) : Prop where
  bound : prefixes.find? name = some space
  nonempty : space ≠ ""
  starts : space.toList <+: iri.toList

/-- The namespace is a longest one that starts the IRI, and the prefix the greatest one bound to it. -/
structure Prefers (prefixes : Prefixes) (iri name space : String) : Prop where
  starts : prefixes.Starts iri name space
  longest : ∀ other longer, prefixes.Starts iri other longer → longer.utf8ByteSize ≤ space.utf8ByteSize
  greatest : ∀ other, prefixes.find? other = some space → other ≤ name

/-- Of two namespaces that start the same IRI, one starts the other. -/
theorem Prefers.unique (first : prefixes.Prefers iri name space) (second : prefixes.Prefers iri other longer) :
    name = other ∧ space = longer := by
  have same : space = longer := by
    rcases List.prefix_or_prefix_of_prefix first.starts.starts second.starts.starts with within | within
    · exact (utf8ByteSize_le_of_isPrefix within).2 (first.longest other longer second.starts)
    · exact ((utf8ByteSize_le_of_isPrefix within).2 (second.longest name space first.starts)).symm
  subst same
  exact ⟨Std.le_antisymm (second.greatest name first.starts.bound)
    (first.greatest other second.starts.bound), rfl⟩

def namesOf (prefixes : Prefixes) (iri : Iri) : List CompactName :=
  prefixes.entries.filterMap (compactName? iri.toList)

theorem mem_namesOf {candidate : CompactName} : candidate ∈ prefixes.namesOf iri ↔
    ∃ space, prefixes.Starts iri candidate.namePrefix space ∧
      iri.toList = space.toList ++ candidate.localName := by
  simp only [namesOf, List.mem_filterMap, Prod.exists, OrderedMap.mem_entries, compactName?]
  constructor
  · rintro ⟨name, space, bound, named⟩
    split at named
    · cases named
    · next nonempty =>
      obtain ⟨rest, found, rfl⟩ := Option.map_eq_some_iff.mp named
      have parts := after?_eq_some_iff.mp found
      exact ⟨space, ⟨bound, by simpa using nonempty, rest, parts.symm⟩, parts⟩
  · rintro ⟨space, starts, parts⟩
    refine ⟨candidate.namePrefix, space, starts.bound, ?_⟩
    rw [if_neg (by simpa using starts.nonempty), after?_eq_some_iff.mpr parts]
    rfl

theorem namesOf_increasing : (prefixes.namesOf iri).Pairwise fun first second =>
    first.namePrefix < second.namePrefix := by
  have named {binding : String × String} {found : CompactName}
      (gives : compactName? iri.toList binding = some found) : found.namePrefix = binding.1 := by
    unfold compactName? at gives
    split at gives
    · cases gives
    · obtain ⟨rest, _, rfl⟩ := Option.map_eq_some_iff.mp gives
      rfl
  refine prefixes.increasing.filterMap _ fun first second before one found two also => ?_
  rw [named found, named also]
  exact before

theorem prefers_of_isBest {best : CompactName} (isBest : best.IsBest (prefixes.namesOf iri)) :
    ∃ space, prefixes.Prefers iri best.namePrefix space ∧ iri.toList = space.toList ++ best.localName := by
  obtain ⟨space, starts, parts⟩ := mem_namesOf.mp isBest.member
  refine ⟨space, ⟨starts, fun other longer also => ?_, fun other bound => ?_⟩, parts⟩
  -- The shorter the rest, the longer the namespace.
  · obtain ⟨rest, whole⟩ := also.starts
    have shortest := isBest.shortest ⟨other, rest⟩ (mem_namesOf.mpr ⟨longer, also, whole.symm⟩)
    have lengths := congrArg List.length (whole.trans parts)
    simp only [List.length_append] at lengths
    refine (utf8ByteSize_le_of_isPrefix ?_).1
    exact List.prefix_of_prefix_length_le also.starts starts.starts (by simp only at shortest; omega)
  · have listed : (⟨other, best.localName⟩ : CompactName) ∈ prefixes.namesOf iri :=
      mem_namesOf.mpr ⟨space, ⟨bound, starts.nonempty, starts.starts⟩, parts⟩
    exact isBest.greatest _ listed rfl

theorem compact?_cases (prefixes : Prefixes) (iri : Iri) :
    (∃ name space rest, prefixes.Prefers iri name space ∧ iri = space ++ rest ∧
      prefixes.compact? iri = some (name ++ ":" ++ rest)) ∨
    (¬∃ name space, prefixes.Starts iri name space) ∧ prefixes.compact? iri = none := by
  have unfolded : prefixes.compact? iri =
      ((prefixes.namesOf iri).foldl betterName none).map CompactName.text := rfl
  rw [unfolded]
  by_cases none : prefixes.namesOf iri = []
  · refine Or.inr ⟨?_, by rw [none]; rfl⟩
    rintro ⟨name, space, starts⟩
    obtain ⟨rest, whole⟩ := starts.starts
    have listed : (⟨name, rest⟩ : CompactName) ∈ prefixes.namesOf iri :=
      mem_namesOf.mpr ⟨space, starts, whole.symm⟩
    rw [none] at listed
    cases listed
  · obtain ⟨best, found, isBest⟩ := exists_isBest none namesOf_increasing
    obtain ⟨space, prefers, parts⟩ := prefers_of_isBest isBest
    refine Or.inl ⟨best.namePrefix, space, String.ofList best.localName, prefers, ?_, by rw [found]; rfl⟩
    exact String.toList_injective (by rw [String.toList_append, String.toList_ofList, parts])

theorem isSome_compact?_iff :
    (prefixes.compact? iri).isSome = true ↔ ∃ name space, prefixes.Starts iri name space := by
  rcases prefixes.compact?_cases iri with ⟨name, space, rest, prefers, _, found⟩ | ⟨nothing, missing⟩
  · exact iff_of_true (by rw [found]; rfl) ⟨name, space, prefers.starts⟩
  · exact iff_of_false (by simp [missing]) nothing

theorem compact?_eq_some_iff : prefixes.compact? iri = some text ↔
    ∃ name space rest, prefixes.Prefers iri name space ∧ iri = space ++ rest ∧
      text = name ++ ":" ++ rest := by
  rcases prefixes.compact?_cases iri with ⟨name, space, rest, prefers, parts, found⟩ | ⟨nothing, missing⟩
  · rw [found, Option.some.injEq]
    refine ⟨fun same => ⟨name, space, rest, prefers, parts, same.symm⟩, ?_⟩
    rintro ⟨other, longer, more, also, again, rfl⟩
    obtain ⟨rfl, rfl⟩ := prefers.unique also
    rw [String.append_right_inj .. |>.mp (parts.symm.trans again)]
  · refine iff_of_false (by simp [missing]) ?_
    rintro ⟨name, space, rest, prefers, _⟩
    exact nothing ⟨name, space, prefers.starts⟩

/-- No bound prefix can be taken for the start of a bracketed IRI or for more than the part of a name
before its first colon. -/
def ArePlain (prefixes : Prefixes) : Prop :=
  ∀ name space, prefixes.find? name = some space → ':' ∉ name.toList ∧ name.toList.head? ≠ some '<'

theorem ArePlain.expand_compact (plain : prefixes.ArePlain) (bound : prefixes.find? name = some space)
    (rest : String) : prefixes.expand (name ++ ":" ++ rest) = space ++ rest := by
  obtain ⟨clear, start⟩ := plain name space bound
  have chars : (name ++ ":" ++ rest).toList = name.toList ++ ':' :: rest.toList := by simp
  have unbracketed : (name.toList ++ ':' :: rest.toList).head? ≠ some '<' := by
    cases whole : name.toList with
    | nil => simp
    | cons first more =>
      rw [whole] at start
      simpa using start
  rw [expand, chars, between?_eq_none unbracketed]
  simp only [expandCompact?, cutAt?_append clear, Option.bind_some, String.ofList_toList, bound,
    Option.map_some, Option.getD_some]

end Prefixes

namespace Graph
variable {graph : Graph}

theorem expand_iriName_of_plain (plain : graph.prefixes.ArePlain) (iri : Iri) :
    graph.prefixes.expand (graph.iriName iri) = iri := by
  unfold iriName
  rcases graph.prefixes.compact?_cases iri with ⟨name, space, rest, prefers, parts, found⟩ | ⟨_, missing⟩
  · rw [found, Option.getD_some, plain.expand_compact prefers.starts.bound, parts]
  · rw [missing]
    exact graph.prefixes.expand_iriText iri

/-- With plain prefixes, the name of an IRI in an outline expands to the IRI, and different IRIs have
different names. With any prefixes, an IRI has a compact name exactly if a namespace starts it, and it is
made of the preferred prefix and what follows the namespace. -/
theorem expand_iriName (graph : Graph) :
    (graph.prefixes.ArePlain →
      (∀ iri, graph.prefixes.expand (graph.iriName iri) = iri) ∧ Function.Injective graph.iriName) ∧
    ∀ iri,
      ((graph.prefixes.compact? iri).isSome = true ↔ ∃ name space, graph.prefixes.Starts iri name space) ∧
      ∀ text, graph.prefixes.compact? iri = some text ↔
        ∃ name space rest, graph.prefixes.Prefers iri name space ∧ iri = space ++ rest ∧
          text = name ++ ":" ++ rest := by
  refine ⟨fun plain => ?_, fun iri => ⟨Prefixes.isSome_compact?_iff, fun _ => Prefixes.compact?_eq_some_iff⟩⟩
  have expands := expand_iriName_of_plain plain
  exact ⟨expands, Function.LeftInverse.injective expands⟩

end Graph

/-! Prefixes that share a namespace, one namespace inside another, an empty one and an empty prefix. -/

def festivalPrefixes : Prefixes :=
  .ofList [("", "http://festival.org/"), ("film", "http://festival.org/films/"),
    ("movie", "http://festival.org/films/"), ("none", "")]

def festivalGraph : Graph := ⟨festivalPrefixes, [], [], ⟨[], []⟩, ∅⟩

theorem festivalPrefixes_arePlain : festivalPrefixes.ArePlain := by
  intro name space bound
  have listed := OrderedMap.mem_entries.mpr bound
  have all : ∀ binding ∈ festivalPrefixes.entries,
      ':' ∉ binding.1.toList ∧ binding.1.toList.head? ≠ some '<' := by decide +kernel
  exact all _ listed

theorem expand_iriName_festival :
    festivalPrefixes.ArePlain ∧
      festivalGraph.iriName "http://festival.org/films/a:b<c>" = "movie:a:b<c>" ∧
      festivalPrefixes.expand (festivalGraph.iriName "http://festival.org/films/a:b<c>") =
        "http://festival.org/films/a:b<c>" ∧
      festivalPrefixes.expand (festivalGraph.iriName "http://festival.org/film") =
        "http://festival.org/film" ∧
      festivalGraph.iriName "urn:film" = "<urn:film>" ∧
      festivalPrefixes.expand (festivalGraph.iriName "urn:film") = "urn:film" ∧
      Function.Injective festivalGraph.iriName := by
  obtain ⟨expands, injective⟩ := (Graph.expand_iriName festivalGraph).1 festivalPrefixes_arePlain
  exact ⟨festivalPrefixes_arePlain, by decide +kernel, expands _, expands _, by decide +kernel, expands _,
    injective⟩

end PlanGraph
