import PlanGraph.Proofs.Json.Accepting
import PlanGraph.Proofs.Json.RecordReading
import PlanGraph.Proofs.Plan.Documents

/-! Which JSON values have the form of a plan: exactly the spellings of its document. So a document is
rejected before any term is read if its form is wrong in any place. -/

set_option autoImplicit false
namespace PlanGraph
open Json Text

/-! ## Identifiers -/

theorem Text.digitChar_of_isDigit {char : Char} (digit : char.isDigit = true) :
    char.toNat - '0'.toNat < 10 ∧ Nat.digitChar (char.toNat - '0'.toNat) = char := by
  have range : 48 ≤ char.toNat ∧ char.toNat ≤ 57 := by
    simpa [Char.isDigit, UInt32.le_iff_toNat_le] using digit
  have zero : '0'.toNat = 48 := rfl
  refine ⟨by omega, Char.toNat_inj.mp ?_⟩
  rw [Nat.toNat_digitChar_of_lt_ten (by omega)]
  omega

theorem Text.decimalValue_concat (digits : List Char) (last : Char) :
    decimalValue (digits ++ [last]) = decimalValue digits * 10 + (last.toNat - '0'.toNat) := by
  simp [decimalValue]

/-- Digits without a zero in front are the decimal form of their number. The induction takes the last digit
away, as division by ten does; what is left is not zero, so it has a decimal form of its own. -/
theorem Text.toDigits_decimalValue {first : Char} {rest : List Char} (leads : first ≠ '0')
    (digits : ∀ char ∈ first :: rest, char.isDigit = true) :
    0 < decimalValue (first :: rest) ∧ Nat.toDigits 10 (decimalValue (first :: rest)) = first :: rest := by
  induction rest using List.reverseRecOn with
  | nil =>
    obtain ⟨small, same⟩ := digitChar_of_isDigit (digits first (by simp))
    have value : decimalValue [first] = first.toNat - '0'.toNat := by simp [decimalValue]
    rw [value, Nat.toDigits_of_lt_base small, same]
    refine ⟨?_, rfl⟩
    by_contra none
    have zero : first.toNat - '0'.toNat = 0 := by omega
    rw [zero] at same
    exact leads same.symm
  | append_singleton init last ih =>
    have earlier : ∀ char ∈ first :: init, char.isDigit = true := by
      intro char member
      refine digits char ?_
      rw [← List.cons_append]
      exact List.mem_append_left [last] member
    obtain ⟨positive, same⟩ := ih earlier
    obtain ⟨small, char⟩ := digitChar_of_isDigit (digits last (by simp))
    rw [← List.cons_append, decimalValue_concat]
    refine ⟨by omega, ?_⟩
    rw [Nat.toDigits_of_base_le (by decide) (by omega)]
    have quotient : (decimalValue (first :: init) * 10 + (last.toNat - '0'.toNat)) / 10 =
        decimalValue (first :: init) := by omega
    have remainder : (decimalValue (first :: init) * 10 + (last.toNat - '0'.toNat)) % 10 =
        last.toNat - '0'.toNat := by omega
    rw [quotient, remainder, same, char]

theorem Json.IsWhole.toDigits {digits : List Char} (whole : IsWhole digits) :
    Nat.toDigits 10 (decimalValue digits) = digits := by
  cases whole with
  | zero => decide
  | digits digit leads digits => exact (toDigits_decimalValue leads (List.forall_mem_cons.mpr ⟨digit, digits⟩)).2

theorem Json.isWhole_of_digits {whole fraction power : List Char} (isWhole : IsWhole whole)
    (isFraction : IsFraction fraction) (isPower : IsPower power)
    (digits : ∀ char ∈ whole ++ (fraction ++ power), char.isDigit = true) :
    IsWhole (whole ++ (fraction ++ power)) := by
  cases isFraction with
  | absent =>
    cases isPower with
    | absent => simpa using isWhole
    | @digits mark sign power marked =>
      have digit : mark.isDigit = true := digits mark (by simp)
      rcases marked with rfl | rfl <;> cases digit
  | digits =>
    have digit : '.'.isDigit = true := digits '.' (by simp)
    cases digit

theorem Json.IsNumberText.natural {chars : List Char} (number : IsNumberText chars)
    (digits : ∀ char ∈ chars, char.isDigit = true) : IsWhole chars := by
  obtain ⟨rfl | rfl, isWhole, isFraction, isPower⟩ := number
  · rw [List.nil_append] at digits ⊢
    exact isWhole_of_digits isWhole isFraction isPower digits
  · have digit : '-'.isDigit = true := digits '-' (by simp)
    cases digit

theorem Json.IsNumberText.negative {chars : List Char} (number : IsNumberText ('-' :: chars))
    (digits : ∀ char ∈ chars, char.isDigit = true) : IsWhole chars := by
  generalize text : '-' :: chars = whole at number
  obtain ⟨rfl | rfl, isWhole, isFraction, isPower⟩ := number
  · rw [List.nil_append] at text
    cases isWhole with
    | zero => cases text
    | digits digit =>
      cases text
      cases digit
  · rw [List.cons_append, List.nil_append, List.cons.injEq] at text
    obtain ⟨_, rfl⟩ := text
    exact isWhole_of_digits isWhole isFraction isPower digits

namespace Document

theorem idSpelling_of_integerText? {digits id : String} (number : IsNumberText digits.toList)
    (read : integerText? digits = some id) : IdSpelling id (.number digits) := by
  unfold integerText? at read
  dsimp only at read
  split at read
  · next magnitude signed =>
    split at read
    · next fits =>
      cases read
      simp only [Bool.and_eq_true, List.all_eq_true, decide_eq_true_eq] at fits
      obtain ⟨⟨areDigits, positive⟩, most⟩ := fits
      -- No zero stands in front of the digits, so they are the decimal form of the magnitude.
      have decimal := (IsNumberText.negative (signed ▸ number) areDigits).toDigits
      obtain ⟨below, value⟩ := Nat.exists_eq_succ_of_ne_zero (Nat.ne_of_gt positive)
      rw [value] at decimal most
      refine @IdSpelling.integer _ (Int.negSucc below) ?_ ?_ ?_
      · have bound : below + 1 ≤ 2 ^ 63 := most
        omega
      · exact Int.lt_trans (Int.negSucc_lt_zero below) (by decide)
      · have written : toString (Int.negSucc below) = "-" ++ toString (below + 1) := rfl
        refine String.toList_injective ?_
        rw [written, String.toList_append, toList_toString, decimal, signed]
        rfl
    · cases read
  · next unsigned =>
    split at read
    · next fits =>
      cases read
      simp only [Bool.and_eq_true, List.all_eq_true, decide_eq_true_eq] at fits
      obtain ⟨areDigits, most⟩ := fits
      have decimal := (number.natural areDigits).toDigits
      refine @IdSpelling.integer _ (Int.ofNat (decimalValue digits.toList)) ?_ ?_ ?_
      · exact Int.le_trans (by decide) (Int.natCast_nonneg _)
      · have bound : decimalValue digits.toList < 2 ^ 63 := most
        exact Int.ofNat_lt.mpr bound
      · have written : toString (Int.ofNat (decimalValue digits.toList)) =
            toString (decimalValue digits.toList) := rfl
        refine String.toList_injective ?_
        rw [written, toList_toString, decimal]
    · cases read

theorem reveals_id : Reveals id? IdSpelling := by
  intro id value writable found
  cases value with
  | number digits => exact idSpelling_of_integerText? (writable digits (by simp [Value.tokens])) found
  | string content =>
    cases found
    exact .text
  | _ => cases found

/-! ## Structures -/

/-- The fields that a record is read from, and what can be said of their values. -/
theorem record_of_record? {fields : List Field} {values : List (Option Value)} {value : Value}
    (distinct : AreDistinct fields) (writable : value.IsWritable) (read : value.record? fields = some values) :
    RecordSpelling fields values value ∧ ∀ field ∈ values, ∀ inner ∈ field, inner.IsWritable :=
  have record := (record?_eq_some_iff distinct).mp read
  ⟨record, record.isWritable writable⟩

theorem reveals_step : Reveals Step.ofValue? Step.Spelling := by
  intro step value writable found
  unfold Step.ofValue? at found
  split at found
  · next property type read =>
    obtain ⟨record, inside⟩ := record_of_record? (by decide) writable read
    simp only [Option.bind_eq_bind, Option.bind_eq_some_iff, Option.pure_def, Option.some.injEq] at found
    obtain ⟨_, first, _, second, rfl⟩ := found
    simp only [List.forall_mem_cons, Option.mem_some_iff, forall_eq'] at inside
    exact .mk (reveals_text _ _ inside.1 first) (reveals_text _ _ inside.2.1 second) record
  · cases found

theorem reveals_cycle : Reveals Cycle.ofValue? Cycle.Spelling := by
  intro cycle value writable found
  unfold Cycle.ofValue? at found
  split at found
  · next id steps read =>
    obtain ⟨record, inside⟩ := record_of_record? (by decide) writable read
    simp only [Option.bind_eq_bind, Option.bind_eq_some_iff, Option.pure_def, Option.some.injEq] at found
    obtain ⟨_, first, _, second, rfl⟩ := found
    simp only [List.forall_mem_cons, Option.mem_some_iff, forall_eq'] at inside
    exact .mk (reveals_id _ _ inside.1 first) (reveals_step.listOf _ _ inside.2.1 second) record
  · cases found

theorem checkSpelling_of_check? {check : Option Bool} {field : Option Value}
    (writable : ∀ inner ∈ field, inner.IsWritable) (found : check? field = some check) :
    CheckSpelling check field :=
  reveals_bool.nullable.orDefault writable found

theorem reveals_path : Reveals Path.ofValue? Path.Spelling := by
  intro path value writable found
  unfold Path.ofValue? at found
  split at found
  · next steps seeds check read =>
    obtain ⟨record, inside⟩ := record_of_record? (by decide) writable read
    simp only [Option.bind_eq_bind, Option.bind_eq_some_iff, Option.pure_def, Option.some.injEq] at found
    obtain ⟨_, first, _, second, _, third, rfl⟩ := found
    simp only [List.forall_mem_cons] at inside
    exact .mk (reveals_step.listOf.orDefault inside.1 first) (reveals_text.listOf.orDefault inside.2.1 second)
      (checkSpelling_of_check? inside.2.2.1 third) record
  · cases found

theorem reveals_hints : Reveals hints? HintsSpelling := by
  intro check value writable found
  unfold hints? at found
  split at found
  · next field read =>
    obtain ⟨record, inside⟩ := record_of_record? (by decide) writable read
    exact .mk (checkSpelling_of_check? (inside field (by simp)) found) record
  · cases found

theorem reveals_pattern {value : Value} {subject predicate object : String} (writable : value.IsWritable)
    (found : pattern? value = some (subject, predicate, object)) :
    ListSpelling TextSpelling [subject, predicate, object] value := by
  unfold pattern? at found
  split at found
  · next texts =>
    cases found
    exact reveals_text.listOf _ _ writable texts
  · cases found

theorem reveals_entry : Reveals Entry.ofValue? Entry.Spelling := by
  intro entry value writable found
  unfold Entry.ofValue? at found
  split at found
  · next context pattern hints cycles paths read =>
    obtain ⟨record, inside⟩ := record_of_record? (by decide) writable read
    simp only [Option.bind_eq_bind, Option.bind_eq_some_iff, Option.pure_def, Option.some.injEq] at found
    obtain ⟨texts, terms, _, first, _, second, _, third, _, fourth, rfl⟩ := found
    simp only [List.forall_mem_cons, Option.mem_some_iff, forall_eq'] at inside
    obtain ⟨contextInside, patternInside, hintsInside, cyclesInside, pathsInside, _⟩ := inside
    exact .mk (reveals_id _ _ contextInside first) (reveals_pattern patternInside terms)
      (reveals_hints.orDefault hintsInside second) (reveals_cycle.listOf.orDefault cyclesInside third)
      (reveals_path.listOf.orDefault pathsInside fourth) record
  · cases found

theorem reveals_document : Reveals Document.ofValue? Document.Spelling := by
  intro document value writable found
  unfold Document.ofValue? at found
  split at found
  · next prefixes entries read =>
    obtain ⟨record, inside⟩ := record_of_record? (by decide) writable read
    simp only [Option.bind_eq_bind, Option.bind_eq_some_iff, Option.pure_def, Option.some.injEq] at found
    obtain ⟨_, first, _, second, rfl⟩ := found
    simp only [List.forall_mem_cons, Option.mem_some_iff, forall_eq'] at inside
    exact .mk (reveals_text.bindings.orDefault inside.1 first) (reveals_entry.listOf _ _ inside.2.1 second)
      record
  · cases found

/-! ## Texts -/

def IsSpelledBy (document : Document) (text : String) : Prop :=
  ∃ value, document.Spelling value ∧ value.Spelling text.toList

/-- A text is read as the document that it spells, so it spells only one. -/
theorem isSpelledBy_iff {document : Document} {text : String} : document.IsSpelledBy text ↔
    (Json.Value.ofGlyphs? (glyphsOfText text)).bind Document.ofValue? = some document := by
  rw [glyphsOfText, Option.bind_eq_some_iff]
  refine exists_congr fun value => ?_
  rw [Value.ofGlyphs?_eq_some_iff, and_comm]
  refine and_congr_right fun spelled => ?_
  exact ⟨undoes_document document value, reveals_document document value spelled.isWritable⟩

end Document
end PlanGraph
