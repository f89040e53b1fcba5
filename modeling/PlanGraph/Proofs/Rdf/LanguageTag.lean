import PlanGraph.Rdf.LanguageTag
import PlanGraph.Proofs.Rdf.IriCharacters
import PlanGraph.Proofs.Rdf.NQuads

/-! The subtags of well-formed language tags. None of them is empty, and they consist of letters and
digits. -/

set_option autoImplicit false
namespace PlanGraph.Rdf
open Text NQuads

def AreSubtags (subtags : List (List Char)) : Prop := ∀ subtag ∈ subtags, IsWord Char.isAlphanum subtag

instance (subtags : List (List Char)) : Decidable (AreSubtags subtags) :=
  inferInstanceAs (Decidable (∀ subtag ∈ subtags, _))

section
variable {least most : Nat} {subtag : List Char} {subtags rest : List (List Char)}

theorem isSubtag_of_isAlphanumerics (positive : 0 < least)
    (allowed : isAlphanumerics least most subtag = true) : IsWord Char.isAlphanum subtag := by
  simp only [isAlphanumerics, Bool.and_eq_true, decide_eq_true_eq] at allowed
  exact ⟨List.ne_nil_of_length_pos (Nat.lt_of_lt_of_le positive allowed.1.1), allowed.2⟩

theorem isSubtag_of_isLetters (positive : 0 < least) (allowed : isLetters least most subtag = true) :
    IsWord Char.isAlphanum subtag := by
  simp only [isLetters, Bool.and_eq_true, decide_eq_true_eq, List.all_eq_true] at allowed
  refine ⟨List.ne_nil_of_length_pos (Nat.lt_of_lt_of_le positive allowed.1.1),
    List.all_eq_true.mpr fun char inside => ?_⟩
  rw [Char.isAlphanum, allowed.2 char inside, Bool.true_or]

theorem isSubtag_of_isExtendedLanguage (allowed : isExtendedLanguage subtag = true) :
    IsWord Char.isAlphanum subtag :=
  isSubtag_of_isLetters (by decide) allowed

theorem isSubtag_of_isScript (allowed : isScript subtag = true) : IsWord Char.isAlphanum subtag :=
  isSubtag_of_isLetters (by decide) allowed

theorem isSubtag_of_isRegion (allowed : isRegion subtag = true) : IsWord Char.isAlphanum subtag := by
  rcases Bool.or_eq_true_iff.mp allowed with letters | digits
  · exact isSubtag_of_isLetters (by decide) letters
  · simp only [Bool.and_eq_true, beq_iff_eq, List.all_eq_true] at digits
    refine ⟨List.ne_nil_of_length_pos (by omega), List.all_eq_true.mpr fun char inside => ?_⟩
    rw [Char.isAlphanum, digits.2 char inside, Bool.or_true]

theorem isSubtag_of_isVariant (allowed : isVariant subtag = true) : IsWord Char.isAlphanum subtag := by
  rcases Bool.or_eq_true_iff.mp allowed with long | short
  · exact isSubtag_of_isAlphanumerics (by decide) long
  · exact isSubtag_of_isAlphanumerics (by decide) (Bool.and_eq_true_iff.mp short).1

theorem areSubtags_of_arePrivate (allowed : arePrivate subtags = true) : AreSubtags subtags := by
  simp only [arePrivate, Bool.and_eq_true, List.all_eq_true] at allowed
  exact fun subtag member => isSubtag_of_isAlphanumerics (by decide) (allowed.2 subtag member)

theorem areSubtags_of_areExtensions {lacking : Bool} (allowed : areExtensions lacking subtags = true) :
    AreSubtags subtags := by
  fun_induction areExtensions lacking subtags with
  | case1 => exact fun _ none => nomatch none
  | case2 lacking rest =>
    simp only [Bool.and_eq_true] at allowed
    exact List.forall_mem_cons.mpr ⟨⟨by decide, by decide⟩, areSubtags_of_arePrivate allowed.2⟩
  | case3 lacking subtag rest _ single ih =>
    simp only [Bool.and_eq_true] at allowed
    exact List.forall_mem_cons.mpr ⟨isSubtag_of_isAlphanumerics (by decide) single, ih allowed.2⟩
  | case4 lacking subtag rest _ _ ih =>
    simp only [Bool.and_eq_true] at allowed
    exact List.forall_mem_cons.mpr ⟨isSubtag_of_isAlphanumerics (by decide) allowed.1, ih allowed.2⟩

theorem areSubtags_of_dropUpTo {kind : List Char → Bool} {count : Nat}
    (known : ∀ subtag, kind subtag = true → IsWord Char.isAlphanum subtag)
    (later : AreSubtags (dropUpTo count kind subtags)) : AreSubtags subtags := by
  intro subtag member
  rw [← List.take_append_drop (min count (subtags.takeWhile kind).length) subtags] at member
  rcases List.mem_append.mp member with dropped | kept
  · have within := (List.take_prefix_take_left (Nat.min_le_right count _)).subset dropped
    rw [List.prefix_iff_eq_take.mp (List.takeWhile_prefix kind) |>.symm] at within
    exact known subtag (List.all_eq_true.mp List.all_takeWhile subtag within)
  · exact later subtag kept

theorem areSubtags_of_followLanguage {language : List Char} (allowed : followLanguage language subtags = true) :
    AreSubtags subtags := by
  simp only [followLanguage, Bool.and_eq_true] at allowed
  obtain ⟨_, allowed⟩ := allowed
  -- The kinds of subtags follow each other, so they are gone through from the last one.
  have variants : AreSubtags (dropUpTo 1 isRegion (dropUpTo 1 isScript
      (dropUpTo (if language.length < 4 then 3 else 0) isExtendedLanguage subtags))) := by
    generalize dropUpTo 1 isRegion _ = further at allowed
    intro subtag member
    rw [← List.takeWhile_append_dropWhile (p := isVariant) (l := further)] at member
    rcases List.mem_append.mp member with variants | extensions
    · exact isSubtag_of_isVariant (List.all_eq_true.mp List.all_takeWhile subtag variants)
    · exact areSubtags_of_areExtensions allowed subtag extensions
  have regions := areSubtags_of_dropUpTo (fun _ => isSubtag_of_isRegion) variants
  have scripts := areSubtags_of_dropUpTo (fun _ => isSubtag_of_isScript) regions
  exact areSubtags_of_dropUpTo (fun _ => isSubtag_of_isExtendedLanguage) scripts

end

theorem splitOn_eq (separator : Char) (chars : List Char) : ∃ first rest,
    splitOn separator chars = first :: rest ∧ chars = first ++ rest.flatMap (separator :: ·) := by
  induction chars with
  | nil => exact ⟨[], [], rfl, rfl⟩
  | cons char chars ih =>
    obtain ⟨first, rest, pieces, whole⟩ := ih
    unfold splitOn
    rw [pieces]
    split
    · next same => exact ⟨[], first :: rest, rfl, by rw [same, whole]; rfl⟩
    · exact ⟨char :: first, rest, rfl, by rw [whole]; rfl⟩

/-- A language of letters, and subtags after it. -/
def AreParts (pieces : List (List Char)) : Prop :=
  (∀ first ∈ pieces.head?, IsWord Char.isAlpha first) ∧
    AreSubtags pieces.tail

instance (pieces : List (List Char)) : Decidable (AreParts pieces) := inferInstanceAs (Decidable (_ ∧ _))

theorem areParts_of_irregular : ∀ tag ∈ irregularTags, AreParts (splitOn '-' tag.toList) := by
  decide +kernel

theorem areParts_of_isLanguageTag {chars : List Char} (tag : isLanguageTag chars = true) :
    AreParts (splitOn '-' chars) := by
  rcases Bool.or_eq_true_iff.mp tag with irregular | regular
  · simpa using areParts_of_irregular _ (List.contains_iff_mem.mp irregular)
  · split at regular
    · cases regular
    · next first rest pieces =>
      rw [pieces]
      split at regular
      · next isPrivate =>
        rw [isPrivate]
        refine ⟨fun first leads => ?_, areSubtags_of_arePrivate regular⟩
        cases leads
        exact ⟨by decide, by decide⟩
      · simp only [isLetters, Bool.and_eq_true, decide_eq_true_eq] at regular
        obtain ⟨⟨⟨least, _⟩, letters⟩, further⟩ := regular
        refine ⟨fun language leads => ?_, areSubtags_of_followLanguage further⟩
        cases leads
        exact ⟨List.ne_nil_of_length_pos (by omega), letters⟩

theorem isTag_of_isLanguageTag {chars : List Char} (tag : isLanguageTag chars = true) : NQuads.IsTag chars := by
  have parts := areParts_of_isLanguageTag tag
  obtain ⟨first, rest, pieces, whole⟩ := splitOn_eq '-' chars
  rw [pieces] at parts
  exact ⟨first, rest, whole, parts.1 first rfl, parts.2⟩

theorem NQuads.IsTag.not_mem {tag : List Char} (valid : IsTag tag) : ' ' ∉ tag := by
  obtain ⟨primary, subtags, rfl, ⟨_, letters⟩, others⟩ := valid
  intro inside
  rcases List.mem_append.mp inside with first | later
  · cases List.all_eq_true.mp letters ' ' first
  · obtain ⟨subtag, member, found⟩ := List.mem_flatMap.mp later
    rcases List.mem_cons.mp found with mark | blank
    · cases mark
    · cases List.all_eq_true.mp (others subtag member).2 ' ' blank

end PlanGraph.Rdf
