import PlanGraph.Text.CharClass
import PlanGraph.Text.Decoding

/-! The tokens of a JSON text. -/

set_option autoImplicit false
namespace PlanGraph.Json
open Text

inductive Token
  | openArray
  | closeArray
  | openObject
  | closeObject
  | colon
  | comma
  | null
  | bool (value : Bool)
  | number (digits : String)
  | string (content : Option String)
deriving DecidableEq, Repr

def isSpace (glyph : Glyph) : Bool :=
  glyph == some ' ' || glyph == some '\t' || glyph == some '\n' || glyph == some '\r'

def isControl (glyph : Glyph) : Bool := glyph.any fun char => char.toNat < 0x20

def namedEscape? : Char → Option Char
  | '"' => some '"'
  | '\\' => some '\\'
  | '/' => some '/'
  | 'b' => some '\x08'
  | 'f' => some '\x0c'
  | 'n' => some '\n'
  | 'r' => some '\r'
  | 't' => some '\t'
  | _ => none

def codeUnit? (glyphs : List Glyph) : Option (Nat × List Glyph) :=
  match characters? (glyphs.take 4) with
  | some digits =>
    if digits.length = 4 then (hexNumber? digits).map fun unit => (unit, glyphs.drop 4) else none
  | none => none

def isLeadSurrogate (unit : Nat) : Bool := 0xD800 ≤ unit && unit < 0xDC00

def isTrailSurrogate (unit : Nat) : Bool := 0xDC00 ≤ unit && unit < 0xE000

/-- The second half of a surrogate pair, written as an escape of its own. -/
def trailSurrogate? : List Glyph → Option (Nat × List Glyph)
  | some '\\' :: some 'u' :: rest =>
    (codeUnit? rest).bind fun (unit, after) =>
      if isTrailSurrogate unit then some (unit, after) else none
  | _ => none

/-- What a backslash in a string stands for. Half of a surrogate pair is read as no character. -/
def escape? (glyphs : List Glyph) : Option (Glyph × List Glyph) :=
  match glyphs with
  | some 'u' :: rest =>
    (codeUnit? rest).map fun (unit, after) =>
      if isLeadSurrogate unit then
        match trailSurrogate? after with
        | some (trail, final) =>
          (scalar? (0x10000 + (unit - 0xD800) * 0x400 + (trail - 0xDC00)), final)
        | none => (none, after)
      else (scalar? unit, after)
  | some char :: rest => (namedEscape? char).map fun named => (some named, rest)
  | _ => none

theorem length_of_codeUnit? {glyphs rest : List Glyph} {unit : Nat}
    (read : codeUnit? glyphs = some (unit, rest)) : rest.length ≤ glyphs.length := by
  unfold codeUnit? at read
  split at read
  · split at read
    · obtain ⟨_, _, same⟩ := Option.map_eq_some_iff.mp read
      simp only [Prod.mk.injEq] at same
      simp [← same.2]
    · exact absurd read (by simp)
  · exact absurd read (by simp)

theorem length_of_trailSurrogate? {glyphs rest : List Glyph} {unit : Nat}
    (read : trailSurrogate? glyphs = some (unit, rest)) : rest.length ≤ glyphs.length := by
  unfold trailSurrogate? at read
  split at read
  · obtain ⟨⟨trail, after⟩, found, same⟩ := Option.bind_eq_some_iff.mp read
    have shorter := length_of_codeUnit? found
    simp only at same
    split at same
    · simp only [Option.some.injEq, Prod.mk.injEq] at same
      simp [← same.2]; omega
    · exact absurd same (by simp)
  · exact absurd read (by simp)

theorem length_of_escape? {glyphs rest : List Glyph} {glyph : Glyph}
    (read : escape? glyphs = some (glyph, rest)) : rest.length < glyphs.length := by
  unfold escape? at read
  split at read
  · obtain ⟨⟨unit, after⟩, found, same⟩ := Option.map_eq_some_iff.mp read
    have shorter := length_of_codeUnit? found
    simp only at same
    split at same
    · split at same
      · rename_i paired
        have further := length_of_trailSurrogate? paired
        simp only [Prod.mk.injEq] at same
        simp [← same.2]; omega
      · simp only [Prod.mk.injEq] at same
        simp [← same.2]; omega
    · simp only [Prod.mk.injEq] at same
      simp [← same.2]; omega
  · obtain ⟨_, _, same⟩ := Option.map_eq_some_iff.mp read
    simp only [Prod.mk.injEq] at same
    simp [← same.2]
  · exact absurd read (by simp)

def stringContent? (glyphs : List Glyph) : Option (List Glyph × List Glyph) :=
  match glyphs with
  | [] => none
  | some '"' :: rest => some ([], rest)
  | some '\\' :: rest =>
    match read : escape? rest with
    | some (glyph, after) =>
      have : after.length < rest.length := length_of_escape? read
      (stringContent? after).map fun result => (glyph :: result.1, result.2)
    | none => none
  | glyph :: rest =>
    if isControl glyph then none
    else (stringContent? rest).map fun result => (glyph :: result.1, result.2)
termination_by glyphs.length
decreasing_by all_goals simp_wf; try omega

theorem length_of_stringContent? {glyphs content rest : List Glyph}
    (read : stringContent? glyphs = some (content, rest)) : rest.length < glyphs.length := by
  fun_induction stringContent? glyphs generalizing content with
  | case1 => exact absurd read (by simp)
  | case2 tail =>
    simp only [Option.some.injEq, Prod.mk.injEq] at read
    simp [← read.2]
  | case3 tail glyph after escaped shorter ih =>
    obtain ⟨result, found, same⟩ := Option.map_eq_some_iff.mp read
    simp only [Prod.mk.injEq] at same
    have further := ih (found.trans (congrArg some (Prod.ext rfl same.2)))
    simp; omega
  | case4 => exact absurd read (by simp)
  | case5 => exact absurd read (by simp)
  | case6 glyph tail _ _ _ ih =>
    obtain ⟨result, found, same⟩ := Option.map_eq_some_iff.mp read
    simp only [Prod.mk.injEq] at same
    have further := ih (found.trans (congrArg some (Prod.ext rfl same.2)))
    simp; omega

def isNumberChar (char : Char) : Bool :=
  char.isDigit || char == '-' || char == '+' || char == '.' || char == 'e' || char == 'E'

def areDigits (chars : List Char) : Bool := !chars.isEmpty && chars.all Char.isDigit

def isExponent : List Char → Bool
  | '+' :: digits => areDigits digits
  | '-' :: digits => areDigits digits
  | digits => areDigits digits

def isNumberTail (chars : List Char) : Bool :=
  let isPowerOrEmpty : List Char → Bool
    | [] => true
    | first :: rest => (first == 'e' || first == 'E') && isExponent rest
  match chars with
  | '.' :: rest =>
    !(rest.takeWhile Char.isDigit).isEmpty && isPowerOrEmpty (rest.dropWhile Char.isDigit)
  | _ => isPowerOrEmpty chars

/-- Numbers have no superfluous zeros in front and digits on both sides of a dot. -/
def isNumber (chars : List Char) : Bool :=
  let unsigned := match chars with
    | '-' :: rest => rest
    | _ => chars
  match unsigned with
  | '0' :: rest => isNumberTail rest
  | first :: rest => first.isDigit && isNumberTail (rest.dropWhile Char.isDigit)
  | [] => false

def wordToken? (letters : List Char) : Option Token :=
  if letters = "null".toList then some .null
  else if letters = "true".toList then some (.bool true)
  else if letters = "false".toList then some (.bool false)
  else none

def markToken? : Char → Option Token
  | '[' => some .openArray
  | ']' => some .closeArray
  | '\x7b' => some .openObject
  | '\x7d' => some .closeObject
  | ':' => some .colon
  | ',' => some .comma
  | _ => none

def nextToken? (char : Char) (rest : List Glyph) : Option (Token × List Glyph) :=
  if char = '"' then
    (stringContent? rest).map fun (content, after) =>
      (.string ((characters? content).map String.ofList), after)
  else if char = '-' ∨ char.isDigit then
    let (run, after) := spanGlyphs isNumberChar rest
    if isNumber (char :: run) then some (.number (String.ofList (char :: run)), after) else none
  else if char.isAlpha then
    let (run, after) := spanGlyphs Char.isAlpha rest
    (wordToken? (char :: run)).map (·, after)
  else (markToken? char).map (·, rest)

theorem length_of_nextToken? {char : Char} {glyphs rest : List Glyph} {token : Token}
    (read : nextToken? char glyphs = some (token, rest)) : rest.length ≤ glyphs.length := by
  simp only [nextToken?] at read
  split at read
  · obtain ⟨⟨content, after⟩, found, same⟩ := Option.map_eq_some_iff.mp read
    simp only [Prod.mk.injEq] at same
    have shorter := length_of_stringContent? found
    simp [← same.2]; omega
  · split at read
    · split at read
      · simp only [Option.some.injEq, Prod.mk.injEq] at read
        simpa [← read.2] using length_spanGlyphs
      · exact absurd read (by simp)
    · split at read
      · obtain ⟨_, _, same⟩ := Option.map_eq_some_iff.mp read
        simp only [Prod.mk.injEq] at same
        simpa [← same.2] using length_spanGlyphs
      · obtain ⟨_, _, same⟩ := Option.map_eq_some_iff.mp read
        simp only [Prod.mk.injEq] at same
        simp [← same.2]

def tokens? (glyphs : List Glyph) : Option (List Token) :=
  match glyphs with
  | [] => some []
  | none :: _ => none
  | some char :: rest =>
    if isSpace (some char) then tokens? rest
    else
      match read : nextToken? char rest with
      | some (token, after) =>
        have : after.length ≤ rest.length := length_of_nextToken? read
        (tokens? after).map (token :: ·)
      | none => none
termination_by glyphs.length
decreasing_by all_goals simp_wf; try omega

end PlanGraph.Json
