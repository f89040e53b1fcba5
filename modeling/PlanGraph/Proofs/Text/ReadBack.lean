import Mathlib.Algebra.Group.Nat.Defs
import Mathlib.Data.List.Basic
import PlanGraph.Text.Blank
import PlanGraph.Text.Decoding
import PlanGraph.Text.Escape

/-! Reading back what was written: a text between blanks is trimmed to itself, brackets and
separators are found where they were put, hexadecimal digits give their number, and the bytes of a text
are read as the text. -/

set_option autoImplicit false
namespace PlanGraph.Text

/-! ## Trimming -/

structure IsTrimmed (chars : List Char) : Prop where
  nonempty : chars ≠ []
  starts : ∀ first ∈ chars.head?, isBlank first = false
  ends : ∀ last ∈ chars.getLast?, isBlank last = false

def Surrounds (raw chars : List Char) : Prop :=
  ∃ before after : List Char, (∀ char ∈ before, isBlank char = true) ∧
    (∀ char ∈ after, isBlank char = true) ∧ raw = before ++ chars ++ after

theorem Surrounds.refl (chars : List Char) : Surrounds chars chars :=
  ⟨[], [], by simp, by simp, by simp⟩

theorem trimStart_append {before chars : List Char} (blank : ∀ char ∈ before, isBlank char = true)
    (nonempty : chars ≠ []) (starts : ∀ first ∈ chars.head?, isBlank first = false)
    (after : List Char) : trimStart (before ++ chars ++ after) = chars ++ after := by
  cases chars with
  | nil => exact absurd rfl nonempty
  | cons first rest =>
    have stops := starts first rfl
    rw [trimStart, List.append_assoc, List.dropWhile_append_of_pos blank, List.cons_append,
      List.dropWhile_cons_of_neg (by simp [stops])]

theorem trimEnd_append {chars after : List Char} (blank : ∀ char ∈ after, isBlank char = true)
    (nonempty : chars ≠ []) (ends : ∀ last ∈ chars.getLast?, isBlank last = false) :
    trimEnd (chars ++ after) = chars := by
  have dropped : trimStart (after.reverse ++ chars.reverse ++ []) = chars.reverse ++ [] :=
    trimStart_append (fun char inside => blank char (List.mem_reverse.mp inside))
      (by simpa using nonempty) (by simpa using ends) []
  have turned : (chars ++ after).reverse = after.reverse ++ chars.reverse ++ [] := by simp
  calc trimEnd (chars ++ after)
    _ = (trimStart (after.reverse ++ chars.reverse ++ [])).reverse := by rw [← turned]; rfl
    _ = chars := by rw [dropped]; simp

theorem trim_of_surrounds {raw chars : List Char} (surrounded : Surrounds raw chars)
    (trimmed : IsTrimmed chars) : trim raw = chars := by
  obtain ⟨before, after, blankBefore, blankAfter, rfl⟩ := surrounded
  rw [trim, trimStart_append blankBefore trimmed.nonempty trimmed.starts,
    trimEnd_append blankAfter trimmed.nonempty trimmed.ends]

/-! ## Bytes -/

theorem fromUTF8?_eq_some_iff {content : ByteArray} {text : String} :
    String.fromUTF8? content = some text ↔ content = text.toUTF8 := by
  unfold String.fromUTF8?
  constructor
  · intro read
    split at read
    · cases read
      rfl
    · cases read
  · rintro rfl
    have valid : text.toUTF8.IsValidUTF8 := text.isValidUTF8
    rw [dif_pos valid]
    rfl

/-- The characters are read one after another. What is read so far stands in front of their bytes. -/
theorem glyphsFrom_utf8Encode (chars : List Char) (front : ByteArray) (read : List Glyph) (fuel : Nat)
    (enough : chars.utf8Encode.size ≤ fuel) :
    glyphsFrom (front ++ chars.utf8Encode) front.size read fuel = read.reverse ++ chars.map some := by
  induction chars generalizing front read fuel with
  | nil => cases fuel <;> simp [glyphsFrom]
  | cons char rest ih =>
    have split : (char :: rest).utf8Encode = [char].utf8Encode ++ rest.utf8Encode :=
      List.utf8Encode_cons
    have width : [char].utf8Encode.size = char.utf8Size := by simp [List.utf8Encode_singleton]
    have positive := char.utf8Size_pos
    rw [split, ByteArray.size_append, width] at enough
    cases fuel with
    | zero => omega
    | succ fuel =>
      -- The bytes of a character say where they end, so the bytes behind them do not matter.
      have first : (front ++ (char :: rest).utf8Encode).utf8DecodeChar? front.size = some char := by
        have rest := @ByteArray.extract_append_size_add front (char :: rest).utf8Encode 0
          (char :: rest).utf8Encode.size
        rw [Nat.add_zero, ByteArray.extract_zero_size] at rest
        rw [ByteArray.utf8DecodeChar?_eq_utf8DecodeChar?_extract, ByteArray.size_append, rest]
        exact List.utf8DecodeChar?_utf8Encode_cons
      have inside : front.size < (front ++ (char :: rest).utf8Encode).size := by
        rw [split, ByteArray.size_append, ByteArray.size_append, width]
        omega
      have later := ih (front ++ [char].utf8Encode) (some char :: read) fuel (by omega)
      rw [ByteArray.size_append, width, ByteArray.append_assoc, ← split] at later
      rw [glyphsFrom, if_pos inside, first]
      dsimp only
      rw [later]
      simp

theorem glyphsOfBytes_toUTF8 (text : String) : glyphsOfBytes text.toUTF8 = glyphsOfText text := by
  have encoded : text.toUTF8 = ByteArray.empty ++ text.toList.utf8Encode := by simp
  have size : text.toList.utf8Encode.size ≤ text.toUTF8.size := by simp
  have read := glyphsFrom_utf8Encode text.toList ByteArray.empty [] text.toUTF8.size size
  rw [← encoded] at read
  exact read
/-! ## Separators and brackets -/

theorem cutAt?_append {separator : Char} {before after : List Char} (clear : separator ∉ before) :
    cutAt? separator (before ++ separator :: after) = some (before, after) := by
  induction before with
  | nil => simp [cutAt?]
  | cons first rest ih =>
    have differs : first ≠ separator := fun same => clear (same ▸ List.mem_cons_self)
    rw [List.cons_append, cutAt?, if_neg differs,
      ih fun inside => clear (List.mem_cons_of_mem first inside)]
    rfl

theorem cutAt?_eq_some_iff {separator : Char} {chars before after : List Char} :
    cutAt? separator chars = some (before, after) ↔
      chars = before ++ separator :: after ∧ separator ∉ before := by
  constructor
  · intro cut
    induction chars generalizing before with
    | nil => cases cut
    | cons first rest ih =>
      unfold cutAt? at cut
      split at cut
      · next same =>
        cases cut
        simp [same]
      · next differs =>
        obtain ⟨⟨lead, behind⟩, found, whole⟩ := Option.map_eq_some_iff.mp cut
        cases whole
        obtain ⟨split, clear⟩ := ih found
        simp [split, clear, Ne.symm differs]
  · rintro ⟨rfl, clear⟩
    exact cutAt?_append clear

theorem cutAt?_eq_none_iff {separator : Char} {chars : List Char} :
    cutAt? separator chars = none ↔ separator ∉ chars := by
  constructor
  · intro uncut inside
    obtain ⟨before, after, whole, clear⟩ := List.eq_append_cons_of_mem inside
    rw [whole, cutAt?_append clear] at uncut
    cases uncut
  · intro clear
    cases cut : cutAt? separator chars with
    | none => rfl
    | some halves => exact absurd (by simp [(cutAt?_eq_some_iff.mp cut).1]) clear

theorem between?_enclosed (opening closing : Char) (chars : List Char) :
    between? opening closing (opening :: (chars ++ [closing])) = some chars := by
  simp [between?]

theorem between?_eq_some_iff {opening closing : Char} {chars inner : List Char} :
    between? opening closing chars = some inner ↔ chars = opening :: (inner ++ [closing]) := by
  refine ⟨fun found => ?_, fun same => same ▸ between?_enclosed opening closing inner⟩
  unfold between? at found
  split at found
  · cases found
  · split at found
    · next first rest enclosed =>
      obtain ⟨rfl, ends⟩ := enclosed
      obtain ⟨init, rfl⟩ := List.getLast?_eq_some_iff.mp ends
      rw [List.dropLast_concat, Option.some.injEq] at found
      rw [found]
    · cases found

theorem between?_eq_none {opening closing : Char} {chars : List Char}
    (other : chars.head? ≠ some opening) : between? opening closing chars = none := by
  cases chars with
  | nil => rfl
  | cons first rest =>
    rw [between?, if_neg fun enclosed => other (congrArg some enclosed.1)]

/-! ## Escape sequences -/

theorem unescape?_cons {rules : EscapeRules} {char : Char} {rest : List Char}
    (plain : char ≠ '\\') :
    unescape? rules (char :: rest) = (unescape? rules rest).map (char :: ·) := by
  rw [unescape?]
  exact fun same => plain same

theorem unescape?_escape {rules : EscapeRules} {char : Char} {written following : List Char}
    (read : escapeSequence? rules written = some (char, following)) :
    unescape? rules ('\\' :: written) = (unescape? rules following).map (char :: ·) := by
  rw [unescape?]
  split
  · rename_i other after found
    rw [read] at found
    cases found
    rfl
  · rename_i missing
    rw [read] at missing
    cases missing

theorem unescape?_of_clear {rules : EscapeRules} {chars : List Char} (clear : '\\' ∉ chars) :
    unescape? rules chars = some chars := by
  induction chars with
  | nil => rw [unescape?]
  | cons char rest ih =>
    have plain : char ≠ '\\' := fun same => clear (same ▸ List.mem_cons_self)
    rw [unescape?_cons plain, ih fun inside => clear (List.mem_cons_of_mem char inside)]
    rfl

/-! ## Characters and their numbers -/

theorem characters?_eq_some_iff {glyphs : List Glyph} {chars : List Char} :
    characters? glyphs = some chars ↔ glyphs = chars.map some := by
  constructor
  · intro read
    induction glyphs generalizing chars with
    | nil =>
      cases read
      rfl
    | cons glyph rest ih =>
      cases glyph with
      | none => cases read
      | some char =>
        obtain ⟨further, tail, rfl⟩ := Option.map_eq_some_iff.mp read
        rw [ih tail, List.map_cons]
  · rintro rfl
    exact characters?_map_some chars

theorem scalar?_toNat (char : Char) : scalar? char.toNat = some char := by
  have valid : char.toNat.isValidChar := char.valid
  rw [scalar?, if_pos valid, Char.ofNat_toNat]

/-- What holds of the characters of ASCII is found by looking at each of them. -/
theorem forall_ascii {holds : Char → Prop} (listed : ∀ code < 128, holds (Char.ofNat code))
    {char : Char} (ascii : char.toNat < 128) : holds char := by
  have found := listed char.toNat ascii
  rwa [Char.ofNat_toNat] at found

theorem hexValue?_toUpper (char : Char) : hexValue? char.toUpper = hexValue? char := by
  by_cases small : 'a' ≤ char ∧ char ≤ 'z'
  · have most : char.toNat ≤ 122 := small.2
    exact @forall_ascii (fun char => hexValue? char.toUpper = hexValue? char) (by decide) char
      (Nat.lt_of_le_of_lt most (by decide))
  · have same : char.toUpper = char := dif_neg small
    rw [same]

theorem hexNumber?_map_toUpper (digits : List Char) :
    hexNumber? (digits.map Char.toUpper) = hexNumber? digits := by
  simp only [hexNumber?, List.foldlM_map, hexValue?_toUpper]

theorem isHexDigit_of_foldlM {digits : List Char} {start number : Nat}
    (read : digits.foldlM (fun number digit => (hexValue? digit).map (number * 16 + ·)) start =
      some number) : ∀ digit ∈ digits, isHexDigit digit = true := by
  induction digits generalizing start with
  | nil => exact fun _ inside => absurd inside (by simp)
  | cons first rest ih =>
    rw [List.foldlM_cons] at read
    obtain ⟨next, head, tail⟩ := Option.bind_eq_some_iff.mp read
    obtain ⟨value, single, _⟩ := Option.map_eq_some_iff.mp head
    exact List.forall_mem_cons.mpr ⟨by rw [isHexDigit, single]; rfl, ih tail⟩

theorem isHexDigit_of_hexNumber? {digits : List Char} {number : Nat}
    (read : hexNumber? digits = some number) : ∀ digit ∈ digits, isHexDigit digit = true :=
  isHexDigit_of_foldlM read

theorem hexNumber?_concat (digits : List Char) (last : Char) :
    hexNumber? (digits ++ [last]) =
      (hexNumber? digits).bind fun number => (hexValue? last).map (number * 16 + ·) := by
  simp [hexNumber?, List.foldlM_append]

theorem hexNumber?_replicate_append (count : Nat) (digits : List Char) :
    hexNumber? (List.replicate count '0' ++ digits) = hexNumber? digits := by
  induction count with
  | zero => rfl
  | succ count ih =>
    rw [← ih]
    rfl

theorem hexNumber?_toDigits (number : Nat) : hexNumber? (Nat.toDigits 16 number) = some number := by
  induction number using Nat.strongRecOn with
  | ind number ih =>
    have single : ∀ digit, digit < 16 → hexValue? digit.digitChar = some digit := by decide
    rcases Nat.lt_or_ge number 16 with small | large
    · rw [Nat.toDigits_of_lt_base small]
      simp [hexNumber?, single number small]
    · rw [Nat.toDigits_of_base_le (by decide) large, hexNumber?_concat,
        ih (number / 16) (by omega), single _ (Nat.mod_lt number (by decide))]
      have whole : number / 16 * 16 + number % 16 = number := by omega
      exact congrArg some whole

theorem hexNumber?_hexDigits (width number : Nat) :
    hexNumber? (hexDigits width number) = some number := by
  rw [hexDigits, hexNumber?_replicate_append, hexNumber?_map_toUpper, hexNumber?_toDigits]

theorem length_hexDigits {width number : Nat} (positive : 0 < width) (fits : number < 16 ^ width) :
    (hexDigits width number).length = width := by
  have short := (Nat.length_toDigits_le_iff (by decide) positive).mpr fits
  simp only [hexDigits, List.length_append, List.length_replicate, List.length_map]
  omega

end PlanGraph.Text
