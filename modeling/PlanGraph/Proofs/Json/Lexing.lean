import Mathlib.Data.List.Chain
import PlanGraph.Proofs.Json.Spelling

/-! Every spelling of a list of tokens is read as the tokens. Only numbers and words could run into
what follows them; between the tokens of a value one of two neighbours is always a mark. -/

set_option autoImplicit false
namespace PlanGraph.Json
open Text

/-! ## Strings -/

theorem codeUnit?_digits {digits : List Char} {unit : Nat} (written : AreUnitDigits digits unit)
    (rest : List Glyph) : codeUnit? (digits.map some ++ rest) = some (unit, rest) := by
  have long : (digits.map some : List Glyph).length = 4 := by rw [List.length_map, written.length]
  have front : (digits.map some ++ rest).take 4 = digits.map some := List.take_left' long
  have back : (digits.map some ++ rest).drop 4 = rest := List.drop_left' long
  simp [codeUnit?, front, back, characters?_map_some, written.length, written.number]

theorem escape?_short {letter char : Char} (listed : (letter, char) ∈ shortEscapes)
    (rest : List Glyph) : escape? (some letter :: rest) = some (some char, rest) := by
  simp only [shortEscapes, List.mem_cons, Prod.mk.injEq, List.not_mem_nil, or_false] at listed
  rcases listed with ⟨rfl, rfl⟩ | ⟨rfl, rfl⟩ | ⟨rfl, rfl⟩ | ⟨rfl, rfl⟩ | ⟨rfl, rfl⟩ | ⟨rfl, rfl⟩ |
    ⟨rfl, rfl⟩ | ⟨rfl, rfl⟩ <;> rfl

theorem isLeadSurrogate_iff {unit : Nat} :
    isLeadSurrogate unit = true ↔ 0xD800 ≤ unit ∧ unit < 0xDC00 := by
  simp [isLeadSurrogate]

theorem isTrailSurrogate_iff {unit : Nat} :
    isTrailSurrogate unit = true ↔ 0xDC00 ≤ unit ∧ unit < 0xE000 := by
  simp [isTrailSurrogate]

theorem escape?_unit {char : Char} {digits : List Char} (written : AreUnitDigits digits char.toNat)
    (rest : List Glyph) : escape? (some 'u' :: (digits.map some ++ rest)) = some (some char, rest) := by
  have notLead : isLeadSurrogate char.toNat = false := by
    have valid : char.toNat.isValidChar := char.valid
    rw [Bool.eq_false_iff, Ne, isLeadSurrogate_iff]
    rcases valid with low | ⟨high, _⟩ <;> omega
  simp [escape?, codeUnit?_digits written, notLead, scalar?_toNat]

theorem escape?_surrogates {first second : List Char} {lead trail : Nat}
    (leadWritten : AreUnitDigits first lead) (trailWritten : AreUnitDigits second trail)
    (isLead : isLeadSurrogate lead = true) (isTrail : isTrailSurrogate trail = true)
    (rest : List Glyph) :
    escape? (some 'u' :: (first.map some ++ some '\\' :: some 'u' :: (second.map some ++ rest))) =
      some (scalar? (0x10000 + (lead - 0xD800) * 0x400 + (trail - 0xDC00)), rest) := by
  simp only [escape?, codeUnit?_digits leadWritten, isLead, trailSurrogate?,
    codeUnit?_digits trailWritten, isTrail, if_true, Option.map_some, Option.bind_some]

theorem escape?_pair {char : Char} {first second : List Char} (large : 0x10000 ≤ char.toNat)
    (lead : AreUnitDigits first (0xD800 + (char.toNat - 0x10000) / 0x400))
    (trail : AreUnitDigits second (0xDC00 + (char.toNat - 0x10000) % 0x400)) (rest : List Glyph) :
    escape? (some 'u' :: (first.map some ++ some '\\' :: some 'u' :: (second.map some ++ rest))) =
      some (some char, rest) := by
  have bound : char.toNat < 0x110000 := by
    have valid : char.toNat.isValidChar := char.valid
    rcases valid with low | ⟨_, high⟩ <;> omega
  rw [escape?_surrogates lead trail (isLeadSurrogate_iff.mpr (by omega))
    (isTrailSurrogate_iff.mpr (by omega))]
  have joined : 0x10000 + (0xD800 + (char.toNat - 0x10000) / 0x400 - 0xD800) * 0x400 +
      (0xDC00 + (char.toNat - 0x10000) % 0x400 - 0xDC00) = char.toNat := by omega
  rw [joined, scalar?_toNat]

theorem escape?_half {unit : Nat} {digits : List Char} (written : AreUnitDigits digits unit)
    (least : 0xD800 ≤ unit) (most : unit < 0xE000) {rest : List Glyph}
    (alone : unit < 0xDC00 → trailSurrogate? rest = none) :
    escape? (some 'u' :: (digits.map some ++ rest)) = some (none, rest) := by
  have noChar : scalar? unit = none := by
    refine if_neg fun valid => ?_
    rcases valid with low | ⟨high, _⟩ <;> omega
  rcases Nat.lt_or_ge unit 0xDC00 with lead | trail
  · have isLead : isLeadSurrogate unit = true := isLeadSurrogate_iff.mpr ⟨least, lead⟩
    simp [escape?, codeUnit?_digits written, isLead, alone lead]
  · have notLead : isLeadSurrogate unit = false := by
      rw [Bool.eq_false_iff, Ne, isLeadSurrogate_iff]
      omega
    simp [escape?, codeUnit?_digits written, notLead, noChar]

theorem stringContent?_escape {rest after : List Glyph} {glyph : Glyph}
    (read : escape? rest = some (glyph, after)) :
    stringContent? (some '\\' :: rest) =
      (stringContent? after).map fun result => (glyph :: result.1, result.2) := by
  rw [stringContent?]
  split
  · rename_i other behind found
    rw [read] at found
    cases found
    rfl
  · rename_i missing
    rw [read] at missing
    cases missing

theorem stringContent?_plain {char : Char} (printable : 0x20 ≤ char.toNat) (notQuote : char ≠ '"')
    (notBackslash : char ≠ '\\') (rest : List Glyph) :
    stringContent? (some char :: rest) =
      (stringContent? rest).map fun result => (some char :: result.1, result.2) := by
  have notControl : isControl (some char) = false := by
    simpa [isControl] using printable
  rw [stringContent?]
  · simp [notControl]
  · simpa using notQuote
  · simpa using notBackslash

/-- The digits of a code unit do not reach beyond a quote. -/
theorem areUnitDigits_of_codeUnit? {chars : List Char} {rest after : List Glyph} {unit : Nat}
    (read : codeUnit? (chars.map some ++ some '"' :: rest) = some (unit, after)) :
    ∃ digits more, AreUnitDigits digits unit ∧ chars = digits ++ more := by
  unfold codeUnit? at read
  split at read
  · rename_i digits found
    obtain ⟨long, read⟩ := Option.ite_none_right_eq_some.mp read
    obtain ⟨number, value, same⟩ := Option.map_eq_some_iff.mp read
    cases same
    have front := characters?_eq_some_iff.mp found
    refine ⟨digits, chars.drop 4, ⟨long, value⟩, ?_⟩
    rcases Nat.lt_or_ge chars.length 4 with short | enough
    · have quoted : some '"' ∈ (chars.map some ++ some '"' :: rest).take 4 := by
        obtain ⟨missing, gap⟩ : ∃ missing, 4 - chars.length = missing + 1 :=
          ⟨3 - chars.length, by omega⟩
        rw [List.take_append, List.length_map, gap, List.take_succ_cons]
        simp
      rw [front, List.mem_map] at quoted
      obtain ⟨char, inside, same⟩ := quoted
      cases same
      exact absurd (isHexDigit_of_hexNumber? value _ inside) (by decide)
    · rw [List.take_append_of_le_length (by simpa using enough), ← List.map_take] at front
      rw [← (List.map_inj_right fun _ _ => Option.some.inj).mp front, List.take_append_drop]
  · cases read

theorem trailSurrogate?_eq_none {chars : List Char} (alone : ¬StartsTrail chars) (rest : List Glyph) :
    trailSurrogate? (chars.map some ++ some '"' :: rest) = none := by
  unfold trailSurrogate?
  split
  · rename_i behind start
    rcases chars with _ | ⟨first, _ | ⟨second, chars⟩⟩
    · cases start
    · cases start
    · rw [List.map_cons, List.map_cons, List.cons_append, List.cons_append] at start
      cases start
      refine Option.bind_eq_none_iff.mpr fun ⟨trail, after⟩ read => ?_
      obtain ⟨digits, more, written, rfl⟩ := areUnitDigits_of_codeUnit? read
      refine if_neg fun isTrail => alone ?_
      obtain ⟨least, most⟩ := isTrailSurrogate_iff.mp isTrail
      exact ⟨digits, trail, more, written, least, most, rfl⟩
  · rfl

theorem stringContent?_of_spelling {content : List Glyph} {chars : List Char}
    (spelled : StringSpelling content chars) (rest : List Glyph) :
    stringContent? (chars.map some ++ some '"' :: rest) = some (content, rest) := by
  induction spelled with
  | nil => simp [stringContent?]
  | plain printable notQuote notBackslash _ ih =>
    rw [List.map_cons, List.cons_append, stringContent?_plain printable notQuote notBackslash, ih]
    rfl
  | short listed _ ih =>
    rw [List.map_cons, List.map_cons, List.cons_append, List.cons_append,
      stringContent?_escape (escape?_short listed _), ih]
    rfl
  | unit written _ ih =>
    simp only [List.map_cons, List.map_append, List.cons_append, List.append_assoc]
    rw [stringContent?_escape (escape?_unit written _), ih]
    rfl
  | pair large lead trail _ ih =>
    simp only [List.map_cons, List.map_append, List.cons_append, List.append_assoc]
    rw [stringContent?_escape (escape?_pair large lead trail _), ih]
    rfl
  | half written least most alone _ ih =>
    simp only [List.map_cons, List.map_append, List.cons_append, List.append_assoc]
    rw [stringContent?_escape (escape?_half written least most fun lead =>
      trailSurrogate?_eq_none (alone lead) rest), ih]
    rfl

/-! ## Numbers -/

theorem areDigits_iff {chars : List Char} : areDigits chars = true ↔ AreDigits chars := by
  simp [areDigits, AreDigits]

theorem takeWhile_digits {digits rest : List Char} (all : ∀ char ∈ digits, char.isDigit = true)
    (stops : ∀ first ∈ rest.head?, first.isDigit = false) :
    (digits ++ rest).takeWhile Char.isDigit = digits := by
  rw [List.takeWhile_append_of_pos all]
  cases rest with
  | nil => simp
  | cons first rest => simp [stops first rfl]

theorem dropWhile_digits {digits rest : List Char} (all : ∀ char ∈ digits, char.isDigit = true)
    (stops : ∀ first ∈ rest.head?, first.isDigit = false) :
    (digits ++ rest).dropWhile Char.isDigit = rest := by
  rw [List.dropWhile_append_of_pos all]
  cases rest with
  | nil => simp
  | cons first rest => simp [stops first rfl]

theorem isExponent_of {sign digits : List Char} (signed : sign = [] ∨ sign = ['+'] ∨ sign = ['-'])
    (areDigits : AreDigits digits) : isExponent (sign ++ digits) = true := by
  rcases signed with rfl | rfl | rfl
  · rw [List.nil_append, isExponent]
    · exact areDigits_iff.mpr areDigits
    · rintro rest rfl
      exact absurd (areDigits.2 '+' List.mem_cons_self) (by decide)
    · rintro rest rfl
      exact absurd (areDigits.2 '-' List.mem_cons_self) (by decide)
  · exact areDigits_iff.mpr areDigits
  · exact areDigits_iff.mpr areDigits

theorem IsPower.stops {power : List Char} (isPower : IsPower power) :
    ∀ first ∈ power.head?, first.isDigit = false ∧ first ≠ '.' := by
  cases isPower with
  | absent => simp
  | digits marked _ _ =>
    intro first leads
    cases leads
    rcases marked with rfl | rfl <;> decide

theorem isNumberTail_of {fraction power : List Char} (isFraction : IsFraction fraction)
    (isPower : IsPower power) : isNumberTail (fraction ++ power) = true := by
  have stops := fun first leads => (isPower.stops first leads).1
  cases isFraction with
  | absent =>
    cases isPower with
    | absent => rfl
    | digits marked signed digits =>
      have exponent := isExponent_of signed digits
      rcases marked with rfl | rfl <;> simpa [isNumberTail] using exponent
  | digits fractionDigits =>
    have written := fractionDigits.1
    simp only [isNumberTail, List.cons_append, takeWhile_digits fractionDigits.2 stops,
      dropWhile_digits fractionDigits.2 stops]
    cases isPower with
    | absent => simpa using written
    | digits marked signed digits =>
      have exponent := isExponent_of signed digits
      rcases marked with rfl | rfl <;> simpa [written] using exponent

theorem isDigit_of_head_fraction {fraction power : List Char} (isFraction : IsFraction fraction)
    (isPower : IsPower power) :
    ∀ first ∈ (fraction ++ power).head?, first.isDigit = false := by
  cases isFraction with
  | absent => exact fun first leads => (isPower.stops first leads).1
  | digits _ =>
    intro first leads
    cases leads
    decide

theorem isNumber_of {chars : List Char} (number : IsNumberText chars) : isNumber chars = true := by
  obtain ⟨signed, isWhole, isFraction, isPower⟩ := number
  rename_i sign whole fraction power
  have tail := isNumberTail_of isFraction isPower
  have stops := isDigit_of_head_fraction isFraction isPower
  cases isWhole with
  | zero => rcases signed with rfl | rfl <;> exact tail
  | @digits first rest digit leads digits =>
    have back := dropWhile_digits digits stops
    have notMinus : first ≠ '-' := by
      rintro rfl
      cases digit
    rcases signed with rfl | rfl
    · simp [isNumber, notMinus, digit, back, tail]
    · simp [isNumber, digit, back, tail]

theorem isNumberChar_of_isDigit {char : Char} (digit : char.isDigit = true) :
    isNumberChar char = true := by
  simp [isNumberChar, digit]

theorem isNumberChar_of_isNumberText {chars : List Char} (number : IsNumberText chars) :
    ∀ char ∈ chars, isNumberChar char = true := by
  obtain ⟨signed, isWhole, isFraction, isPower⟩ := number
  rename_i sign whole fraction power
  have signChars : ∀ char ∈ sign, isNumberChar char = true := by
    rcases signed with rfl | rfl <;> simp [isNumberChar]
  have wholeChars : ∀ char ∈ whole, isNumberChar char = true := by
    cases isWhole with
    | zero => simp [isNumberChar]
    | digits digit _ digits =>
      exact List.forall_mem_cons.mpr ⟨isNumberChar_of_isDigit digit,
        fun char inside => isNumberChar_of_isDigit (digits char inside)⟩
  have fractionChars : ∀ char ∈ fraction, isNumberChar char = true := by
    cases isFraction with
    | absent => simp
    | digits digits =>
      exact List.forall_mem_cons.mpr ⟨by decide,
        fun char inside => isNumberChar_of_isDigit (digits.2 char inside)⟩
  have powerChars : ∀ char ∈ power, isNumberChar char = true := by
    cases isPower with
    | absent => simp
    | digits marked signed digits =>
      refine List.forall_mem_cons.mpr ⟨?_, List.forall_mem_append.mpr ⟨?_, ?_⟩⟩
      · rcases marked with rfl | rfl <;> decide
      · rcases signed with rfl | rfl | rfl <;> simp [isNumberChar]
      · exact fun char inside => isNumberChar_of_isDigit (digits.2 char inside)
  simp only [List.forall_mem_append]
  exact ⟨signChars, wholeChars, fractionChars, powerChars⟩

theorem exists_cons_of_isNumberText {chars : List Char} (number : IsNumberText chars) :
    ∃ first rest, chars = first :: rest ∧ (first = '-' ∨ first.isDigit = true) := by
  obtain ⟨rfl | rfl, isWhole, _, _⟩ := number
  · cases isWhole with
    | zero => exact ⟨'0', _, rfl, Or.inr (by decide)⟩
    | digits digit _ _ => exact ⟨_, _, rfl, Or.inr digit⟩
  · exact ⟨'-', _, rfl, Or.inl rfl⟩

/-! ## Tokens -/

def Delimits (chars : List Char) : Prop :=
  ∀ first ∈ chars.head?, isNumberChar first = false ∧ first.isAlpha = false

theorem spanGlyphs_append {kind : Char → Bool} {run rest : List Char}
    (all : ∀ char ∈ run, kind char = true) (stops : ∀ first ∈ rest.head?, kind first = false) :
    spanGlyphs kind ((run ++ rest).map some) = (run, rest.map some) := by
  induction run with
  | nil =>
    cases rest with
    | nil => rfl
    | cons first rest => simp [spanGlyphs, stops first rfl]
  | cons first run ih =>
    have parts := List.forall_mem_cons.mp all
    rw [List.cons_append, List.map_cons, spanGlyphs, if_pos parts.1, ih parts.2]

theorem nextToken?_word {token : Token} {first : Char} {letters following : List Char}
    (alpha : (first :: letters).all Char.isAlpha = true)
    (notNumber : ¬(first = '-' ∨ first.isDigit = true))
    (known : wordToken? (first :: letters) = some token) (delimits : Delimits following) :
    nextToken? first ((letters ++ following).map some) = some (token, following.map some) := by
  have parts := List.forall_mem_cons.mp (List.all_eq_true.mp alpha)
  have run := spanGlyphs_append parts.2 fun char leads => (delimits char leads).2
  have notQuote : first ≠ '"' := by
    rintro rfl
    exact absurd parts.1 (by decide)
  rw [nextToken?, if_neg notQuote, if_neg notNumber, if_pos parts.1, run]
  simp only [known, Option.map_some]

theorem nextToken?_number {digits : String} {first : Char} {chars following : List Char}
    (number : IsNumberText digits.toList) (written : digits.toList = first :: chars)
    (delimits : Delimits following) :
    nextToken? first ((chars ++ following).map some) =
      some (.number digits, following.map some) := by
  have numberChars := isNumberChar_of_isNumberText number
  have valid := isNumber_of number
  obtain ⟨_, _, same, start⟩ := exists_cons_of_isNumberText number
  rw [written] at same numberChars valid
  cases same
  have run := spanGlyphs_append (List.forall_mem_cons.mp numberChars).2
    fun char leads => (delimits char leads).1
  have notQuote : first ≠ '"' := by
    rintro rfl
    exact absurd start (by decide)
  rw [nextToken?, if_neg notQuote, if_pos start, run]
  simp only [valid, if_true]
  rw [← written, String.ofList_toList]

theorem nextToken?_string {content : List Glyph} {chars : List Char}
    (spelled : StringSpelling content chars) (following : List Char) :
    nextToken? '"' ((chars ++ ['"'] ++ following).map some) =
      some (.string ((characters? content).map String.ofList), following.map some) := by
  have read := stringContent?_of_spelling spelled (following.map some)
  rw [List.append_assoc, List.map_append, List.singleton_append, List.map_cons]
  rw [nextToken?, if_pos rfl, read]
  rfl

/-- A token is read in front of anything that does not continue it. -/
theorem nextToken?_of_spelling {token : Token} {first : Char} {chars following : List Char}
    (spelled : token.Spelling (first :: chars))
    (delimits : token.isMark = false → Delimits following) :
    nextToken? first ((chars ++ following).map some) = some (token, following.map some) := by
  generalize written : first :: chars = spelling at spelled
  cases spelled with
  | number number => exact nextToken?_number number written.symm (delimits rfl)
  | string spelled =>
    cases written
    exact nextToken?_string spelled following
  | null =>
    cases written
    exact nextToken?_word (by decide) (by decide) rfl (delimits rfl)
  | wordTrue =>
    cases written
    exact nextToken?_word (by decide) (by decide) rfl (delimits rfl)
  | wordFalse =>
    cases written
    exact nextToken?_word (by decide) (by decide) rfl (delimits rfl)
  | _ =>
    cases written
    rfl

theorem Token.Spelling.head {token : Token} {chars : List Char} (spelled : token.Spelling chars) :
    ∃ first rest, chars = first :: rest ∧ isSpace (some first) = false := by
  cases spelled with
  | number number =>
    obtain ⟨first, rest, whole, start⟩ := exists_cons_of_isNumberText number
    refine ⟨first, rest, whole, ?_⟩
    rcases start with rfl | digit
    · decide
    · rw [Bool.eq_false_iff]
      intro space
      simp only [isSpace, Bool.or_eq_true, beq_iff_eq, Option.some.injEq] at space
      rcases space with ((rfl | rfl) | rfl) | rfl <;> exact absurd digit (by decide)
  | _ => exact ⟨_, _, rfl, by decide⟩

theorem tokens?_spaces {spaces : List Char} (blank : AreSpaces spaces) (rest : List Glyph) :
    tokens? (spaces.map some ++ rest) = tokens? rest := by
  induction spaces with
  | nil => rfl
  | cons first spaces ih =>
    have parts := List.forall_mem_cons.mp blank
    have space : isSpace (some first) = true := by
      simpa [isSpace, or_assoc] using parts.1
    rw [List.map_cons, List.cons_append, tokens?, if_pos space, ih parts.2]

theorem tokens?_cons {first : Char} {rest after : List Glyph} {token : Token}
    (start : isSpace (some first) = false) (read : nextToken? first rest = some (token, after)) :
    tokens? (some first :: rest) = (tokens? after).map (token :: ·) := by
  rw [tokens?, if_neg (by simp [start])]
  split
  · rename_i other behind found
    rw [read] at found
    cases found
    rfl
  · rename_i missing
    rw [read] at missing
    cases missing

def AreSeparated (tokens : List Token) : Prop :=
  tokens.IsChain fun first second => first.isMark = true ∨ second.isMark = true

theorem delimits_append {spaces rest : List Char} (blank : AreSpaces spaces)
    (delimits : Delimits rest) : Delimits (spaces ++ rest) := by
  cases spaces with
  | nil => exact delimits
  | cons space spaces =>
    have listed : [' ', '\t', '\n', '\r'].all
        (fun char => !isNumberChar char && !char.isAlpha) = true := by decide
    intro first leads
    cases leads
    simpa using List.all_eq_true.mp listed _ (List.forall_mem_cons.mp blank).1

theorem delimits_of_spelling {tokens : List Token} {chars : List Char}
    (spelled : TokensSpelling tokens chars) (marked : ∀ token ∈ tokens.head?, token.isMark = true) :
    Delimits chars := by
  cases spelled with
  | nil blank =>
    rw [← List.append_nil chars]
    exact delimits_append blank fun _ leads => by cases leads
  | cons blank spelled rest =>
    refine delimits_append blank fun first leads => ?_
    have mark := marked _ rfl
    cases spelled <;> first | (cases leads; decide) | cases mark

theorem tokens?_of_spelling {tokens : List Token} {chars : List Char}
    (spelled : TokensSpelling tokens chars) (separated : AreSeparated tokens) :
    tokens? (chars.map some) = some tokens := by
  induction spelled with
  | nil blank =>
    have read := tokens?_spaces blank []
    rw [List.append_nil] at read
    rw [read, tokens?]
  | @cons token tokens spaces chars following blank spelled rest ih =>
    obtain ⟨first, chars, rfl, start⟩ := spelled.head
    have parts := List.isChain_cons.mp separated
    have read := nextToken?_of_spelling spelled fun plain =>
      delimits_of_spelling rest fun next leads => by simpa [plain] using parts.1 next leads
    rw [List.map_append, tokens?_spaces blank, List.cons_append, List.map_cons,
      tokens?_cons start read, ih parts.2]
    rfl

end PlanGraph.Json
