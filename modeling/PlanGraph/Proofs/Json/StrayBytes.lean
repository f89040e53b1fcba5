import PlanGraph.Json.Reader
import PlanGraph.Proofs.Json.Lexing

/-! Texts with bytes that belong to no character. A string with such a byte has no content, as if half of a
surrogate pair stood in it, and nothing else in a text may hold one. So what is read from glyphs is what is
read from another text, which has no stray bytes. -/

set_option autoImplicit false
namespace PlanGraph.Json
open Text

/-- Half of a surrogate pair, between marks that keep it apart from what stands around it. -/
def strayMark : List Char := "!\\ud800!".toList

/-- The glyphs as characters, with the mark in place of each stray byte. -/
def mended : List Glyph → List Char
  | [] => []
  | some char :: rest => char :: mended rest
  | none :: rest => strayMark ++ mended rest

def remade (glyphs : List Glyph) : List Glyph := (mended glyphs).map some

theorem mended_map_some (chars : List Char) : mended (chars.map some) = chars := by
  induction chars with
  | nil => rfl
  | cons char rest ih => rw [List.map_cons, mended, ih]

theorem remade_some (char : Char) (rest : List Glyph) :
    remade (some char :: rest) = some char :: remade rest := rfl

theorem mended_none (rest : List Glyph) : mended (none :: rest) =
    '!' :: '\\' :: 'u' :: 'd' :: '8' :: '0' :: '0' :: '!' :: mended rest := by
  have mark : strayMark = ['!', '\\', 'u', 'd', '8', '0', '0', '!'] := by decide
  rw [mended, mark]
  rfl

theorem remade_none (rest : List Glyph) : remade (none :: rest) = some '!' :: some '\\' :: some 'u' ::
    some 'd' :: some '8' :: some '0' :: some '0' :: some '!' :: remade rest := by
  rw [remade, mended_none]
  rfl

/-! ## Escapes -/

/-- A run of glyphs without stray bytes stays; otherwise a mark begins in it. -/
theorem take_mended (count : Nat) (glyphs : List Glyph) :
    (∃ digits, characters? (glyphs.take count) = some digits ∧ (mended glyphs).take count = digits ∧
      (mended glyphs).drop count = mended (glyphs.drop count)) ∨
    characters? (glyphs.take count) = none ∧ '!' ∈ (mended glyphs).take count := by
  induction count generalizing glyphs with
  | zero => exact Or.inl ⟨[], rfl, rfl, rfl⟩
  | succ count ih =>
    cases glyphs with
    | nil => exact Or.inl ⟨[], rfl, rfl, rfl⟩
    | cons glyph rest =>
      cases glyph with
      | none =>
        rw [mended_none]
        exact Or.inr ⟨rfl, List.mem_cons_self⟩
      | some char =>
        rw [mended, List.take_succ_cons, List.take_succ_cons, List.drop_succ_cons, List.drop_succ_cons,
          characters?]
        rcases ih rest with ⟨digits, plain, same, after⟩ | ⟨stray, mark⟩
        · exact Or.inl ⟨char :: digits, by rw [plain]; rfl, by rw [same], after⟩
        · exact Or.inr ⟨by rw [stray]; rfl, List.mem_cons_of_mem _ mark⟩

theorem hexNumber?_of_mark {digits : List Char} (mark : '!' ∈ digits) : hexNumber? digits = none := by
  cases read : hexNumber? digits with
  | none => rfl
  | some number => exact absurd (isHexDigit_of_hexNumber? read '!' mark) (by decide)

theorem codeUnit?_remade (glyphs : List Glyph) :
    codeUnit? (remade glyphs) = (codeUnit? glyphs).map fun (unit, rest) => (unit, remade rest) := by
  unfold codeUnit? remade
  rw [← List.map_take, ← List.map_drop, characters?_map_some]
  rcases take_mended 4 glyphs with ⟨digits, plain, same, after⟩ | ⟨stray, mark⟩
  · rw [plain, same, after]
    dsimp only
    split
    · rw [Option.map_map]
      rfl
    · rfl
  · rw [stray]
    simp [hexNumber?_of_mark mark]

theorem trailSurrogate?_remade (glyphs : List Glyph) :
    trailSurrogate? (remade glyphs) = (trailSurrogate? glyphs).map fun (unit, rest) => (unit, remade rest) := by
  rcases glyphs with _ | ⟨_ | first, _ | ⟨_ | second, rest⟩⟩
  · rfl
  · rfl
  · rfl
  · rfl
  · simp [remade, mended, trailSurrogate?]
  · simp [remade_some, remade_none, trailSurrogate?]
  · rw [remade_some, remade_some]
    by_cases starts : first = '\\' ∧ second = 'u'
    · obtain ⟨rfl, rfl⟩ := starts
      rw [trailSurrogate?, trailSurrogate?, codeUnit?_remade]
      cases codeUnit? rest with
      | none => rfl
      | some read =>
        obtain ⟨unit, after⟩ := read
        by_cases trail : isTrailSurrogate unit = true <;> simp [trail]
    · unfold trailSurrogate?
      split
      · next same => simp_all
      · split
        · next same => simp_all
        · rfl

theorem escape?_remade (glyphs : List Glyph) :
    escape? (remade glyphs) = (escape? glyphs).map fun (glyph, rest) => (glyph, remade rest) := by
  rcases glyphs with _ | ⟨_ | first, rest⟩
  · rfl
  · rfl
  · rw [remade_some]
    by_cases unit : first = 'u'
    · subst unit
      rw [escape?, escape?, codeUnit?_remade, Option.map_map, Option.map_map]
      congr 1
      funext read
      obtain ⟨unit, after⟩ := read
      simp only [Function.comp_apply, trailSurrogate?_remade]
      split
      · cases trailSurrogate? after <;> simp
      · rfl
    · rw [escape?, escape?, Option.map_map]
      · rfl
      all_goals simp_all

/-! ## Strings -/

/-- What a string says, if its glyphs are characters, and what follows it. -/
def quoted? (glyphs : List Glyph) : Option (Option (List Char) × List Glyph) :=
  (stringContent? glyphs).map fun (content, rest) => (characters? content, rest)

def withGlyph (glyph : Glyph) (result : Option (List Char) × List Glyph) : Option (List Char) × List Glyph :=
  (glyph.bind fun char => result.1.map (char :: ·), result.2)

theorem characters?_cons (glyph : Glyph) (rest : List Glyph) :
    characters? (glyph :: rest) = glyph.bind fun char => (characters? rest).map (char :: ·) := by
  cases glyph with
  | none => rfl
  | some char => rfl

theorem quoted?_escape {rest after : List Glyph} {glyph : Glyph}
    (read : escape? rest = some (glyph, after)) :
    quoted? (some '\\' :: rest) = (quoted? after).map (withGlyph glyph) := by
  rw [quoted?, quoted?, stringContent?_escape read, Option.map_map, Option.map_map]
  congr 1
  funext result
  exact Prod.ext (characters?_cons glyph result.1) rfl

theorem quoted?_invalid {rest : List Glyph} (invalid : escape? rest = none) :
    quoted? (some '\\' :: rest) = none := by
  rw [quoted?, stringContent?]
  split
  · next found => rw [invalid] at found; cases found
  · rfl

theorem quoted?_plain {glyph : Glyph} (printable : isControl glyph = false) (notQuote : glyph ≠ some '"')
    (notBackslash : glyph ≠ some '\\') (rest : List Glyph) :
    quoted? (glyph :: rest) = (quoted? rest).map (withGlyph glyph) := by
  rw [quoted?, quoted?, stringContent?, printable]
  · simp only [Bool.false_eq_true, if_false, Option.map_map]
    congr 1
    funext result
    exact Prod.ext (characters?_cons glyph result.1) rfl
  · exact notQuote
  · exact notBackslash

theorem quoted?_control {glyph : Glyph} (control : isControl glyph = true) (notQuote : glyph ≠ some '"')
    (notBackslash : glyph ≠ some '\\') (rest : List Glyph) : quoted? (glyph :: rest) = none := by
  rw [quoted?, stringContent?, if_pos control]
  · rfl
  · exact notQuote
  · exact notBackslash

/-- The mark is half a surrogate pair, also where more escapes follow. -/
theorem quoted?_mark (rest : List Glyph) : quoted? (remade (none :: rest)) =
    (quoted? (remade rest)).map (withGlyph none) := by
  have written : AreUnitDigits ['d', '8', '0', '0'] 0xD800 := ⟨rfl, by decide⟩
  have half : escape? (some 'u' :: some 'd' :: some '8' :: some '0' :: some '0' :: some '!' :: remade rest) =
      some (none, some '!' :: remade rest) :=
    escape?_half written (by decide) (by decide) fun _ => rfl
  rw [remade_none, quoted?_plain rfl (by decide) (by decide), quoted?_escape half,
    quoted?_plain rfl (by decide) (by decide), Option.map_map, Option.map_map]
  rfl

theorem quoted?_remade (glyphs : List Glyph) :
    quoted? (remade glyphs) = (quoted? glyphs).map (Prod.map id remade) := by
  fun_induction stringContent? glyphs with
  | case1 => rw [remade, mended, List.map_nil, quoted?, stringContent?, Option.map_none, Option.map_none]
  | case2 rest =>
    rw [remade_some, quoted?, quoted?, stringContent?, stringContent?]
    rfl
  | case3 rest glyph after escaped shorter ih =>
    have again : escape? (remade rest) = some (glyph, remade after) := by rw [escape?_remade, escaped]; rfl
    rw [remade_some, quoted?_escape again, quoted?_escape escaped, ih, Option.map_map, Option.map_map]
    rfl
  | case4 rest missing =>
    have again : escape? (remade rest) = none := by rw [escape?_remade, missing]; rfl
    rw [remade_some, quoted?_invalid again, quoted?_invalid missing]
    rfl
  | case5 glyph rest notQuote notBackslash control =>
    cases glyph with
    | none => cases control
    | some char =>
      rw [remade_some, quoted?_control control notQuote notBackslash,
        quoted?_control control notQuote notBackslash]
      rfl
  | case6 glyph rest notQuote notBackslash printable ih =>
    have printable : isControl glyph = false := Bool.eq_false_iff.mpr printable
    rw [quoted?_plain printable notQuote notBackslash]
    have read : quoted? (remade (glyph :: rest)) = (quoted? (remade rest)).map (withGlyph glyph) := by
      cases glyph with
      | none => exact quoted?_mark rest
      | some char => exact quoted?_plain printable notQuote notBackslash (remade rest)
    rw [read, ih, Option.map_map, Option.map_map]
    rfl

/-! ## Tokens -/

theorem spanGlyphs_remade {kind : Char → Bool} (stops : kind '!' = false) (glyphs : List Glyph) :
    spanGlyphs kind (remade glyphs) = Prod.map id remade (spanGlyphs kind glyphs) := by
  induction glyphs with
  | nil => rfl
  | cons glyph rest ih =>
    cases glyph with
    | none => simp only [remade_none, spanGlyphs, stops, Bool.false_eq_true, if_false, Prod.map_apply, id_eq]
    | some char =>
      rw [remade_some, spanGlyphs, spanGlyphs, ih]
      split <;> rfl

theorem nextToken?_quote (rest : List Glyph) : nextToken? '"' rest =
    (quoted? rest).map fun (content, after) => (.string (content.map String.ofList), after) := by
  rw [nextToken?, if_pos rfl, quoted?, Option.map_map]
  rfl

theorem nextToken?_remade (char : Char) (rest : List Glyph) :
    nextToken? char (remade rest) = (nextToken? char rest).map (Prod.map id remade) := by
  by_cases quote : char = '"'
  · subst quote
    rw [nextToken?_quote, nextToken?_quote, quoted?_remade, Option.map_map, Option.map_map]
    rfl
  · rw [nextToken?, nextToken?, if_neg quote, if_neg quote, spanGlyphs_remade (by decide),
      spanGlyphs_remade (by decide)]
    dsimp only [Prod.map_fst, Prod.map_snd, id_eq]
    split
    · split <;> rfl
    · split
      · rw [Option.map_map]
        rfl
      · rw [Option.map_map]
        rfl

theorem tokens?_remade (glyphs : List Glyph) : tokens? (remade glyphs) = tokens? glyphs := by
  fun_induction tokens? glyphs with
  | case1 => rw [remade, mended, List.map_nil, tokens?]
  | case2 rest =>
    rw [remade_none, tokens?, if_neg (by decide)]
    split
    · next found => cases found
    · rfl
  | case3 char rest space ih => rw [remade_some, tokens?, if_pos space, ih]
  | case4 char rest notSpace token after read shorter ih =>
    have again : nextToken? char (remade rest) = some (token, remade after) := by
      rw [nextToken?_remade, read]
      rfl
    rw [remade_some, tokens?_cons (Bool.eq_false_iff.mpr notSpace) again, ih]
  | case5 char rest notSpace missing =>
    have again : nextToken? char (remade rest) = none := by
      rw [nextToken?_remade, missing]
      rfl
    rw [remade_some, tokens?, if_neg notSpace]
    split
    · next found => rw [again] at found; cases found
    · rfl

theorem Value.ofGlyphs?_remade (glyphs : List Glyph) :
    Value.ofGlyphs? (remade glyphs) = Value.ofGlyphs? glyphs := by
  rw [Value.ofGlyphs?, Value.ofGlyphs?, tokens?_remade]

end PlanGraph.Json
