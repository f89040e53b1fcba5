import PlanGraph.Proofs.Json.Reading

/-! What is read as JSON is spelled in JSON: the reader accepts the texts of the grammar and no
others. -/

set_option autoImplicit false
namespace PlanGraph.Json
open Text

/-! ## Strings -/

theorem hexValue?_lt {char : Char} {value : Nat} (read : hexValue? char = some value) : value < 16 := by
  unfold hexValue? at read
  split at read
  · rename_i digit
    simp only [Char.isDigit, Bool.and_eq_true, decide_eq_true_eq] at digit
    have most : char.toNat ≤ 57 := digit.2
    cases read
    exact Nat.lt_of_le_of_lt (Nat.sub_le_sub_right most 48) (by decide)
  · split at read
    · rename_i small
      have most : char.toNat ≤ 102 := small.2
      cases read
      exact Nat.lt_of_le_of_lt (Nat.add_le_add_right (Nat.sub_le_sub_right most 97) 10) (by decide)
    · obtain ⟨large, same⟩ := Option.ite_none_right_eq_some.mp read
      have most : char.toNat ≤ 70 := large.2
      cases same
      exact Nat.lt_of_le_of_lt (Nat.add_le_add_right (Nat.sub_le_sub_right most 65) 10) (by decide)

theorem hexNumber?_lt {digits : List Char} {number : Nat} (read : hexNumber? digits = some number) :
    number < 16 ^ digits.length := by
  induction digits using List.reverseRecOn generalizing number with
  | nil =>
    cases read
    decide
  | append_singleton digits last ih =>
    rw [hexNumber?_concat] at read
    obtain ⟨front, found, read⟩ := Option.bind_eq_some_iff.mp read
    obtain ⟨value, single, rfl⟩ := Option.map_eq_some_iff.mp read
    have bound := ih found
    have digit := hexValue?_lt single
    rw [List.length_append, List.length_singleton, Nat.pow_succ]
    omega

theorem codeUnit?_sound {chars : List Char} {unit : Nat} {after : List Glyph}
    (read : codeUnit? (chars.map some) = some (unit, after)) :
    ∃ digits rest, AreUnitDigits digits unit ∧ chars = digits ++ rest ∧ after = rest.map some := by
  unfold codeUnit? at read
  split at read
  · rename_i digits found
    obtain ⟨long, read⟩ := Option.ite_none_right_eq_some.mp read
    obtain ⟨number, value, same⟩ := Option.map_eq_some_iff.mp read
    cases same
    have front := characters?_eq_some_iff.mp found
    rw [← List.map_take] at front
    have same := (List.map_inj_right fun _ _ => Option.some.inj).mp front
    refine ⟨digits, chars.drop 4, ⟨long, value⟩, ?_, List.map_drop.symm⟩
    rw [← same, List.take_append_drop]
  · cases read

theorem StartsTrail.append {chars : List Char} (starts : StartsTrail chars) (more : List Char) :
    StartsTrail (chars ++ more) := by
  obtain ⟨digits, trail, rest, written, least, most, rfl⟩ := starts
  exact ⟨digits, trail, rest ++ more, written, least, most, by simp⟩

theorem trailSurrogate?_of_startsTrail {chars : List Char} (starts : StartsTrail chars) :
    ∃ result, trailSurrogate? (chars.map some) = some result := by
  obtain ⟨digits, trail, rest, written, least, most, rfl⟩ := starts
  refine ⟨(trail, rest.map some), ?_⟩
  simp [trailSurrogate?, codeUnit?_digits written, isTrailSurrogate_iff.mpr ⟨least, most⟩]

theorem scalar?_eq_some {number : Nat} {char : Char} (read : scalar? number = some char) :
    char.toNat = number := by
  obtain ⟨valid, same⟩ := Option.ite_none_right_eq_some.mp read
  rw [← Option.some.inj same, Char.ofNat, dif_pos valid]
  rfl

theorem isValidChar_of_scalar? {number : Nat} (small : number < 0x10000)
    (missing : scalar? number = none) : 0xD800 ≤ number ∧ number < 0xE000 := by
  have invalid : ¬number.isValidChar := by
    intro valid
    rw [scalar?, if_pos valid] at missing
    cases missing
  refine ⟨Nat.le_of_not_lt fun low => invalid (Or.inl low), Nat.lt_of_not_le fun high => ?_⟩
  exact invalid (Or.inr ⟨by omega, by omega⟩)

theorem mem_shortEscapes {letter char : Char} (read : Json.namedEscape? letter = some char) :
    (letter, char) ∈ shortEscapes := by
  unfold Json.namedEscape? at read
  split at read <;> cases read <;> decide

/-- A glyph, written in front of the spelling of more content, makes a spelling again. In front of a
closing quote nothing else can follow. -/
def SpellsGlyph (glyph : Glyph) (written rest : List Char) : Prop :=
  ∀ content tail more, rest = tail ++ '"' :: more → StringSpelling content tail →
    StringSpelling (glyph :: content) (written ++ tail)

theorem trailSurrogate?_sound {chars : List Char} {trail : Nat} {after : List Glyph}
    (read : trailSurrogate? (chars.map some) = some (trail, after)) :
    ∃ digits rest, AreUnitDigits digits trail ∧ isTrailSurrogate trail = true ∧
      chars = '\\' :: 'u' :: (digits ++ rest) ∧ after = rest.map some := by
  unfold trailSurrogate? at read
  split at read
  · rename_i behind start
    obtain ⟨⟨unit, further⟩, found, same⟩ := Option.bind_eq_some_iff.mp read
    obtain ⟨isTrail, same⟩ := Option.ite_none_right_eq_some.mp same
    cases same
    obtain ⟨first, chars, rfl, firstSame, start⟩ := List.map_eq_cons_iff.mp start
    obtain ⟨second, chars, rfl, secondSame, rfl⟩ := List.map_eq_cons_iff.mp start
    cases firstSame
    cases secondSame
    obtain ⟨digits, rest, written, rfl, rfl⟩ := codeUnit?_sound found
    exact ⟨digits, rest, written, isTrail, rfl, rfl⟩
  · cases read

theorem spellsGlyph_pair {first second rest : List Char} {lead trail : Nat}
    (leadWritten : AreUnitDigits first lead) (trailWritten : AreUnitDigits second trail)
    (isLead : isLeadSurrogate lead = true) (isTrail : isTrailSurrogate trail = true) :
    SpellsGlyph (scalar? (0x10000 + (lead - 0xD800) * 0x400 + (trail - 0xDC00)))
      ('\\' :: 'u' :: (first ++ '\\' :: 'u' :: second)) rest := by
  obtain ⟨leadLeast, leadMost⟩ := isLeadSurrogate_iff.mp isLead
  obtain ⟨trailLeast, trailMost⟩ := isTrailSurrogate_iff.mp isTrail
  generalize joined : 0x10000 + (lead - 0xD800) * 0x400 + (trail - 0xDC00) = number
  have valid : number.isValidChar := Or.inr ⟨by omega, by omega⟩
  have char : scalar? number = some (Char.ofNat number) := if_pos valid
  have code : (Char.ofNat number).toNat = number := scalar?_eq_some char
  have leadSame : lead = 0xD800 + ((Char.ofNat number).toNat - 0x10000) / 0x400 := by omega
  have trailSame : trail = 0xDC00 + ((Char.ofNat number).toNat - 0x10000) % 0x400 := by omega
  rw [leadSame] at leadWritten
  rw [trailSame] at trailWritten
  intro content tail more _ spelled
  have pair := StringSpelling.pair (by omega) leadWritten trailWritten spelled
  rw [char]
  simpa using pair

theorem escape?_sound {chars : List Char} {glyph : Glyph} {after : List Glyph}
    (read : escape? (chars.map some) = some (glyph, after)) :
    ∃ written rest, chars = written ++ rest ∧ after = rest.map some ∧
      SpellsGlyph glyph ('\\' :: written) rest := by
  unfold escape? at read
  split at read
  · rename_i behind start
    obtain ⟨⟨unit, further⟩, found, same⟩ := Option.map_eq_some_iff.mp read
    obtain ⟨mark, chars, rfl, markSame, rfl⟩ := List.map_eq_cons_iff.mp start
    cases markSame
    obtain ⟨digits, rest, written, rfl, rfl⟩ := codeUnit?_sound found
    simp only at same
    split at same
    · rename_i isLead
      split at same
      · rename_i trail final paired
        obtain ⟨rfl, rfl⟩ := Prod.mk.inj same
        obtain ⟨second, rest, trailWritten, isTrail, rfl, rfl⟩ := trailSurrogate?_sound paired
        refine ⟨'u' :: (digits ++ '\\' :: 'u' :: second), rest, by simp, rfl, ?_⟩
        exact spellsGlyph_pair written trailWritten isLead isTrail
      · rename_i unpaired
        cases same
        refine ⟨'u' :: digits, rest, rfl, rfl, fun content tail more behind spelled => ?_⟩
        obtain ⟨least, most⟩ := isLeadSurrogate_iff.mp isLead
        refine .half written least (by omega) (fun _ starts => ?_) spelled
        obtain ⟨result, found⟩ := trailSurrogate?_of_startsTrail (starts.append ('"' :: more))
        rw [← behind, unpaired] at found
        cases found
    · rename_i notLead
      cases same
      refine ⟨'u' :: digits, rest, rfl, rfl, fun content tail more behind spelled => ?_⟩
      cases char : scalar? unit with
      | none =>
        have small : unit < 0x10000 := by simpa [written.length] using hexNumber?_lt written.number
        obtain ⟨least, most⟩ := isValidChar_of_scalar? small char
        refine .half written least most (fun lead => absurd ?_ notLead) spelled
        exact isLeadSurrogate_iff.mpr ⟨least, lead⟩
      | some read =>
        rw [← scalar?_eq_some char] at written
        exact .unit written spelled
  · rename_i letter behind notUnit start
    obtain ⟨named, found, same⟩ := Option.map_eq_some_iff.mp read
    cases same
    obtain ⟨mark, chars, rfl, markSame, rfl⟩ := List.map_eq_cons_iff.mp start
    cases markSame
    exact ⟨[letter], chars, rfl, rfl, fun content tail more _ spelled =>
      .short (mem_shortEscapes found) spelled⟩
  · cases read

theorem stringContent?_sound {chars : List Char} {content after : List Glyph}
    (read : stringContent? (chars.map some) = some (content, after)) :
    ∃ written rest, chars = written ++ '"' :: rest ∧ after = rest.map some ∧
      StringSpelling content written := by
  generalize whole : chars.map some = glyphs at read
  fun_induction stringContent? glyphs generalizing chars content with
  | case1 => cases read
  | case2 behind =>
    obtain ⟨quote, rest, rfl, quoteSame, rfl⟩ := List.map_eq_cons_iff.mp whole
    cases quoteSame
    cases read
    exact ⟨[], rest, rfl, rfl, .nil⟩
  | case3 behind glyph further escaped shorter ih =>
    obtain ⟨backslash, chars, rfl, backslashSame, rfl⟩ := List.map_eq_cons_iff.mp whole
    cases backslashSame
    obtain ⟨⟨tailContent, final⟩, found, same⟩ := Option.map_eq_some_iff.mp read
    cases same
    obtain ⟨written, rest, rfl, rfl, spells⟩ := escape?_sound escaped
    obtain ⟨tail, more, rfl, rfl, spelled⟩ := ih rfl found
    refine ⟨'\\' :: (written ++ tail), more, by simp, rfl, ?_⟩
    exact spells tailContent tail more rfl spelled
  | case4 => cases read
  | case5 => cases read
  | case6 glyph behind notQuote notBackslash printable ih =>
    obtain ⟨char, chars, rfl, rfl, rfl⟩ := List.map_eq_cons_iff.mp whole
    obtain ⟨⟨tailContent, final⟩, found, same⟩ := Option.map_eq_some_iff.mp read
    cases same
    obtain ⟨tail, more, rfl, rfl, spelled⟩ := ih rfl found
    refine ⟨char :: tail, more, rfl, rfl, .plain ?_ ?_ ?_ spelled⟩
    · simpa [isControl] using printable
    · rintro rfl
      exact notQuote rfl
    · rintro rfl
      exact notBackslash rfl

/-! ## Numbers -/

theorem isPower_of {mark : Char} {rest : List Char}
    (accepted : ((mark == 'e' || mark == 'E') && isExponent rest) = true) : IsPower (mark :: rest) := by
  simp only [Bool.and_eq_true, Bool.or_eq_true, beq_iff_eq] at accepted
  obtain ⟨marked, exponent⟩ := accepted
  unfold isExponent at exponent
  split at exponent
  · exact .digits marked (Or.inr (Or.inl rfl)) (areDigits_iff.mp exponent)
  · exact .digits marked (Or.inr (Or.inr rfl)) (areDigits_iff.mp exponent)
  · exact .digits marked (Or.inl rfl) (areDigits_iff.mp exponent)

theorem isDigit_of_mem_takeWhile (chars : List Char) :
    ∀ char ∈ chars.takeWhile Char.isDigit, char.isDigit = true :=
  List.all_eq_true.mp List.all_takeWhile

theorem isNumberTail_sound {chars : List Char} (tail : isNumberTail chars = true) :
    ∃ fraction power, chars = fraction ++ power ∧ IsFraction fraction ∧ IsPower power := by
  simp only [isNumberTail] at tail
  split at tail
  · rename_i rest
    obtain ⟨nonempty, tail⟩ := Bool.and_eq_true_iff.mp tail
    have digits : AreDigits (rest.takeWhile Char.isDigit) :=
      ⟨by simpa using nonempty, isDigit_of_mem_takeWhile rest⟩
    refine ⟨'.' :: rest.takeWhile Char.isDigit, rest.dropWhile Char.isDigit, ?_, .digits digits, ?_⟩
    · rw [List.cons_append, List.takeWhile_append_dropWhile]
    · split at tail
      · rename_i empty
        rw [empty]
        exact .absent
      · rename_i other
        rw [other]
        exact isPower_of tail
  · split at tail
    · exact ⟨[], [], rfl, .absent, .absent⟩
    · exact ⟨[], _, rfl, .absent, isPower_of tail⟩

theorem unsigned_sound {unsigned : List Char} (accepted : isNumber ('-' :: unsigned) = true) :
    ∃ whole fraction power, unsigned = whole ++ (fraction ++ power) ∧ IsWhole whole ∧
      IsFraction fraction ∧ IsPower power := by
  simp only [isNumber] at accepted
  split at accepted
  · obtain ⟨fraction, power, rfl, isFraction, isPower⟩ := isNumberTail_sound accepted
    exact ⟨['0'], fraction, power, rfl, .zero, isFraction, isPower⟩
  · rename_i first rest notZero
    obtain ⟨digit, tail⟩ := Bool.and_eq_true_iff.mp accepted
    obtain ⟨fraction, power, whole, isFraction, isPower⟩ := isNumberTail_sound tail
    refine ⟨first :: rest.takeWhile Char.isDigit, fraction, power, ?_, ?_, isFraction, isPower⟩
    · rw [List.cons_append, ← whole, List.takeWhile_append_dropWhile]
    · refine .digits digit ?_ (isDigit_of_mem_takeWhile rest)
      rintro rfl
      exact notZero rfl
  · cases accepted

theorem isNumber_minus {chars : List Char} (unsigned : ∀ rest, chars ≠ '-' :: rest) :
    isNumber ('-' :: chars) = isNumber chars := by
  cases chars with
  | nil => rfl
  | cons first rest =>
    have other : first ≠ '-' := by
      rintro rfl
      exact unsigned rest rfl
    simp [isNumber]

theorem isNumberText_of_isNumber {chars : List Char} (number : isNumber chars = true) :
    IsNumberText chars := by
  by_cases signed : ∃ rest, chars = '-' :: rest
  · obtain ⟨rest, rfl⟩ := signed
    obtain ⟨whole, fraction, power, rfl, isWhole, isFraction, isPower⟩ := unsigned_sound number
    exact .mk (Or.inr rfl) isWhole isFraction isPower
  · rw [← isNumber_minus fun rest same => signed ⟨rest, same⟩] at number
    obtain ⟨whole, fraction, power, rfl, isWhole, isFraction, isPower⟩ := unsigned_sound number
    exact .mk (Or.inl rfl) isWhole isFraction isPower

/-! ## Tokens -/

theorem spanGlyphs_sound {kind : Char → Bool} {chars run : List Char} {after : List Glyph}
    (split : spanGlyphs kind (chars.map some) = (run, after)) :
    ∃ rest, chars = run ++ rest ∧ after = rest.map some := by
  induction chars generalizing run with
  | nil =>
    cases split
    exact ⟨[], rfl, rfl⟩
  | cons first chars ih =>
    rw [List.map_cons, spanGlyphs] at split
    cases belongs : kind first with
    | true =>
      rw [if_pos belongs] at split
      cases split
      obtain ⟨rest, whole, same⟩ := ih rfl
      exact ⟨rest, congrArg (first :: ·) whole, same⟩
    | false =>
      rw [if_neg (by simp [belongs])] at split
      cases split
      exact ⟨first :: chars, rfl, rfl⟩

theorem wordToken?_sound {letters : List Char} {token : Token}
    (read : wordToken? letters = some token) : token.Spelling letters := by
  unfold wordToken? at read
  split at read
  · rename_i same
    cases read
    exact same ▸ .null
  · split at read
    · rename_i same
      cases read
      exact same ▸ .wordTrue
    · obtain ⟨same, known⟩ := Option.ite_none_right_eq_some.mp read
      cases known
      exact same ▸ .wordFalse

theorem markToken?_sound {char : Char} {token : Token} (read : markToken? char = some token) :
    token.Spelling [char] := by
  unfold markToken? at read
  split at read <;> cases read <;> constructor

theorem nextToken?_sound {first : Char} {chars : List Char} {token : Token} {after : List Glyph}
    (read : nextToken? first (chars.map some) = some (token, after)) :
    ∃ written rest, first :: chars = written ++ rest ∧ after = rest.map some ∧
      token.Spelling written := by
  unfold nextToken? at read
  split at read
  · rename_i quote
    obtain ⟨⟨content, behind⟩, found, same⟩ := Option.map_eq_some_iff.mp read
    cases same
    obtain ⟨written, rest, rfl, rfl, spelled⟩ := stringContent?_sound found
    exact ⟨'"' :: (written ++ ['"']), rest, by simp [quote], rfl, .string spelled⟩
  · split at read
    · obtain ⟨number, same⟩ := Option.ite_none_right_eq_some.mp read
      cases same
      obtain ⟨rest, whole, same⟩ := @spanGlyphs_sound isNumberChar chars _ _ rfl
      refine ⟨first :: (spanGlyphs isNumberChar (chars.map some)).1, rest, ?_, same, ?_⟩
      · rw [List.cons_append, ← whole]
      · have spelled := isNumberText_of_isNumber number
        rw [← @String.toList_ofList (first :: _)] at spelled
        have token := Token.Spelling.number spelled
        rwa [String.toList_ofList] at token
    · split at read
      · obtain ⟨known, found, same⟩ := Option.map_eq_some_iff.mp read
        cases same
        obtain ⟨rest, whole, same⟩ := @spanGlyphs_sound Char.isAlpha chars _ _ rfl
        refine ⟨first :: (spanGlyphs Char.isAlpha (chars.map some)).1, rest, ?_, same, ?_⟩
        · rw [List.cons_append, ← whole]
        · exact wordToken?_sound found
      · obtain ⟨known, found, same⟩ := Option.map_eq_some_iff.mp read
        cases same
        exact ⟨[first], chars, rfl, rfl, markToken?_sound found⟩

theorem TokensSpelling.spaces {tokens : List Token} {spaces chars : List Char}
    (blank : AreSpaces spaces) (spelled : TokensSpelling tokens chars) :
    TokensSpelling tokens (spaces ++ chars) := by
  cases spelled with
  | nil more => exact .nil (List.forall_mem_append.mpr ⟨blank, more⟩)
  | cons more token rest =>
    rw [← List.append_assoc]
    exact .cons (List.forall_mem_append.mpr ⟨blank, more⟩) token rest

theorem TokensSpelling.append {first second : List Token} {front back : List Char}
    (head : TokensSpelling first front) (tail : TokensSpelling second back) :
    TokensSpelling (first ++ second) (front ++ back) := by
  induction head with
  | nil blank => exact tail.spaces blank
  | cons blank token _ ih =>
    rw [List.cons_append, List.append_assoc, List.append_assoc]
    exact .cons blank token ih

theorem tokens?_sound {chars : List Char} {tokens : List Token}
    (read : tokens? (chars.map some) = some tokens) : TokensSpelling tokens chars := by
  generalize whole : chars.map some = glyphs at read
  fun_induction tokens? glyphs generalizing chars tokens with
  | case1 =>
    cases read
    rw [List.map_eq_nil_iff.mp whole]
    exact .nil areSpaces_nil
  | case2 => cases read
  | case3 first behind space ih =>
    obtain ⟨char, rest, rfl, same, rfl⟩ := List.map_eq_cons_iff.mp whole
    cases same
    have blank : AreSpaces [first] := by simpa [AreSpaces, isSpace, or_assoc] using space
    exact TokensSpelling.spaces blank (ih rfl read)
  | case4 first behind start token after found shorter ih =>
    obtain ⟨char, rest, rfl, same, rfl⟩ := List.map_eq_cons_iff.mp whole
    cases same
    obtain ⟨further, later, rfl⟩ := Option.map_eq_some_iff.mp read
    obtain ⟨written, more, whole, rfl, spelled⟩ := nextToken?_sound found
    rw [whole]
    exact .cons areSpaces_nil spelled (ih rfl later)
  | case5 => cases read

theorem tokensSpelling_join {lines : List String} {tokens : List Token}
    (read : (lines.mapM fun line => tokens? (line.toList.map some)).map List.flatten = some tokens) :
    TokensSpelling tokens (String.join lines).toList := by
  induction lines generalizing tokens with
  | nil =>
    cases read
    exact .nil areSpaces_nil
  | cons line lines ih =>
    rw [List.mapM_cons] at read
    obtain ⟨_, found, rfl⟩ := Option.map_eq_some_iff.mp read
    obtain ⟨front, first, found⟩ := Option.bind_eq_some_iff.mp found
    obtain ⟨back, rest, same⟩ := Option.bind_eq_some_iff.mp found
    cases same
    rw [String.join_cons, String.toList_append]
    exact (tokens?_sound first).append (ih (congrArg (Option.map List.flatten) rest))

/-! ## Values -/

/-- Finished items of an open array, the last one first, each with the comma behind it. -/
def finishedItems (items : List Value) : List Token :=
  items.reverse.flatMap fun item => item.tokens ++ [.comma]

def finishedMembers (members : List (Option String × Value)) : List Token :=
  members.reverse.flatMap fun member => .string member.1 :: .colon :: (member.2.tokens ++ [.comma])

def Frame.tokens : Frame → List Token
  | .array items => .openArray :: finishedItems items
  | .object members key => .openObject :: (finishedMembers members ++ [.string key, .colon])

def frameTokens (frames : List Frame) : List Token := frames.reverse.flatMap Frame.tokens

/-- The tokens that lead to a state of the reader. -/
def Expecting.tokens : Expecting → List Token
  | .value frames => frameTokens frames
  | .itemOrClose frames => frameTokens frames ++ [.openArray]
  | .keyOrClose frames => frameTokens frames ++ [.openObject]
  | .key members frames => frameTokens frames ++ .openObject :: finishedMembers members
  | .colon members name frames =>
    frameTokens frames ++ .openObject :: (finishedMembers members ++ [.string name])
  | .separator finished frames => frameTokens frames ++ finished.tokens

theorem frameTokens_cons (frame : Frame) (frames : List Frame) :
    frameTokens (frame :: frames) = frameTokens frames ++ frame.tokens := by
  simp [frameTokens]

theorem finishedItems_cons (item : Value) (items : List Value) :
    finishedItems (item :: items) = finishedItems items ++ (item.tokens ++ [.comma]) := by
  simp [finishedItems]

theorem itemTokens_concat (items : List Value) (last : Value) :
    itemTokens (items ++ [last]) =
      (items.flatMap fun item => item.tokens ++ [.comma]) ++ last.tokens := by
  induction items with
  | nil => simp [itemTokens, laterItemTokens]
  | cons item items ih =>
    have later : laterItemTokens (items ++ [last]) = .comma :: itemTokens (items ++ [last]) := by
      cases items <;> rfl
    simp [itemTokens, later, ih]

theorem memberTokens_concat (members : List (Option String × Value)) (last : Option String × Value) :
    memberTokens (members ++ [last]) =
      (members.flatMap fun member => .string member.1 :: .colon :: (member.2.tokens ++ [.comma])) ++
        .string last.1 :: .colon :: last.2.tokens := by
  induction members with
  | nil => simp [memberTokens, laterMemberTokens]
  | cons member members ih =>
    have later : laterMemberTokens (members ++ [last]) =
        .comma :: memberTokens (members ++ [last]) := by
      cases members <;> rfl
    simp [memberTokens, later, ih]

theorem itemTokens_finished (items : List Value) (last : Value) :
    itemTokens (items.reverse ++ [last]) = finishedItems items ++ last.tokens :=
  itemTokens_concat items.reverse last

theorem memberTokens_finished (members : List (Option String × Value)) (last : Option String × Value) :
    memberTokens (members.reverse ++ [last]) =
      finishedMembers members ++ .string last.1 :: .colon :: last.2.tokens :=
  memberTokens_concat members.reverse last

theorem tokens_startValue {frames : List Frame} {token : Token} {state : Expecting}
    (starts : startValue frames token = some state) :
    state.tokens = frameTokens frames ++ [token] := by
  unfold startValue at starts
  split at starts <;> cases starts <;> rfl

/-- Every token that the reader takes is one of those that its state stands for. -/
theorem tokens_next {state later : Expecting} {token : Token} (next : state.next token = some later) :
    later.tokens = state.tokens ++ [token] := by
  unfold Expecting.next at next
  split at next
  case h_1 => exact tokens_startValue next
  case h_2 =>
    cases next
    simp [Expecting.tokens, Value.tokens, itemTokens]
  case h_3 =>
    rw [tokens_startValue next, frameTokens_cons]
    rfl
  case h_9 finished items frames =>
    cases next
    simp [Expecting.tokens, Value.tokens, frameTokens_cons, Frame.tokens, itemTokens_finished]
  case h_11 finished members name frames =>
    cases next
    simp [Expecting.tokens, Value.tokens, frameTokens_cons, Frame.tokens, memberTokens_finished]
  case h_12 => cases next
  all_goals
    cases next
    simp [Expecting.tokens, Value.tokens, frameTokens_cons, Frame.tokens, finishedItems_cons,
      finishedMembers, memberTokens]

theorem tokens_run {tokens : List Token} {state last : Expecting}
    (run : tokens.foldlM Expecting.next state = some last) : last.tokens = state.tokens ++ tokens := by
  induction tokens generalizing state with
  | nil =>
    cases run
    rw [List.append_nil]
  | cons token tokens ih =>
    rw [List.foldlM_cons] at run
    obtain ⟨next, step, rest⟩ := Option.bind_eq_some_iff.mp run
    rw [ih rest, tokens_next step, List.append_assoc, List.singleton_append]

theorem Value.ofTokens?_eq_some_iff {tokens : List Token} {value : Value} :
    Value.ofTokens? tokens = some value ↔ tokens = value.tokens := by
  constructor
  · intro read
    unfold Value.ofTokens? at read
    split at read
    · rename_i found run
      cases read
      exact (tokens_run run).symm
    · cases read
  · rintro rfl
    exact Value.ofTokens?_tokens value

/-- A text reads as a value exactly if it is a spelling of the value. -/
theorem Value.ofGlyphs?_eq_some_iff {chars : List Char} {value : Value} :
    Value.ofGlyphs? (chars.map some) = some value ↔ value.Spelling chars := by
  constructor
  · intro read
    obtain ⟨tokens, lexed, parsed⟩ := Option.bind_eq_some_iff.mp read
    rw [Value.Spelling, ← Value.ofTokens?_eq_some_iff.mp parsed]
    exact tokens?_sound lexed
  · exact Value.ofGlyphs?_of_spelling

end PlanGraph.Json
