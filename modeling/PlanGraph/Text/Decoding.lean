/-! Texts read from bytes. A glyph of such a text is a character, or `none` for a byte that belongs
to no UTF-8 sequence; readers decide where such bytes do no harm. -/

set_option autoImplicit false
namespace PlanGraph.Text

abbrev Glyph := Option Char

def glyphsFrom (bytes : ByteArray) (position : Nat) (read : List Glyph) : Nat → List Glyph
  | 0 => read.reverse
  | fuel + 1 =>
    if position < bytes.size then
      match bytes.utf8DecodeChar? position with
      | some char => glyphsFrom bytes (position + char.utf8Size) (some char :: read) fuel
      | none => glyphsFrom bytes (position + 1) (none :: read) fuel
    else read.reverse

def glyphsOfBytes (bytes : ByteArray) : List Glyph := glyphsFrom bytes 0 [] bytes.size

def glyphsOfText (text : String) : List Glyph := text.toList.map some

def characters? : List Glyph → Option (List Char)
  | [] => some []
  | none :: _ => none
  | some char :: rest => (characters? rest).map (char :: ·)

theorem characters?_map_some (chars : List Char) : characters? (chars.map some) = some chars := by
  induction chars with
  | nil => rfl
  | cons char rest ih => simp [characters?, ih]

def spanGlyphs (kind : Char → Bool) : List Glyph → List Char × List Glyph
  | [] => ([], [])
  | none :: rest => ([], none :: rest)
  | some char :: rest =>
    if kind char then
      let (run, after) := spanGlyphs kind rest
      (char :: run, after)
    else ([], some char :: rest)

theorem length_spanGlyphs {kind : Char → Bool} {glyphs : List Glyph} :
    (spanGlyphs kind glyphs).2.length ≤ glyphs.length := by
  induction glyphs with
  | nil => simp [spanGlyphs]
  | cons glyph rest ih =>
    cases glyph with
    | none => simp [spanGlyphs]
    | some char =>
      simp only [spanGlyphs]
      split
      · simp; omega
      · simp

end PlanGraph.Text
