import PlanGraph.Json.Value
import PlanGraph.Json.Token
import PlanGraph.Proofs.Text.ReadBack

/-! How JSON values are spelled. A value has one list of tokens; each token is written in one of its
spellings, and white space may stand around it. Strings leave a choice for every character: itself,
a short escape sequence, or the hexadecimal digits of its one or two code units. -/

set_option autoImplicit false
namespace PlanGraph.Json
open Text

/-! ## Strings -/

/-- The letter behind a backslash, and the character that the two stand for. -/
def shortEscapes : List (Char × Char) :=
  [('"', '"'), ('\\', '\\'), ('/', '/'), ('b', '\x08'), ('f', '\x0c'), ('n', '\n'), ('r', '\r'),
   ('t', '\t')]

structure AreUnitDigits (digits : List Char) (unit : Nat) : Prop where
  length : digits.length = 4
  number : hexNumber? digits = some unit

/-- The escape sequence of a code unit that ends a surrogate pair stands in front. -/
def StartsTrail (chars : List Char) : Prop :=
  ∃ digits trail rest, AreUnitDigits digits trail ∧ 0xDC00 ≤ trail ∧ trail < 0xE000 ∧
    chars = '\\' :: 'u' :: (digits ++ rest)

/-- The spellings of the content of a string. A glyph without a character is half of a surrogate
pair whose other half is missing. -/
inductive StringSpelling : List Glyph → List Char → Prop
  | nil : StringSpelling [] []
  | plain {char : Char} {content : List Glyph} {chars : List Char} (printable : 0x20 ≤ char.toNat)
      (notQuote : char ≠ '"') (notBackslash : char ≠ '\\') (rest : StringSpelling content chars) :
      StringSpelling (some char :: content) (char :: chars)
  | short {letter char : Char} {content : List Glyph} {chars : List Char}
      (listed : (letter, char) ∈ shortEscapes) (rest : StringSpelling content chars) :
      StringSpelling (some char :: content) ('\\' :: letter :: chars)
  | unit {char : Char} {digits chars : List Char} {content : List Glyph}
      (written : AreUnitDigits digits char.toNat) (rest : StringSpelling content chars) :
      StringSpelling (some char :: content) ('\\' :: 'u' :: (digits ++ chars))
  | pair {char : Char} {first second chars : List Char} {content : List Glyph}
      (large : 0x10000 ≤ char.toNat)
      (lead : AreUnitDigits first (0xD800 + (char.toNat - 0x10000) / 0x400))
      (trail : AreUnitDigits second (0xDC00 + (char.toNat - 0x10000) % 0x400))
      (rest : StringSpelling content chars) :
      StringSpelling (some char :: content)
        ('\\' :: 'u' :: (first ++ '\\' :: 'u' :: (second ++ chars)))
  | half {unit : Nat} {digits chars : List Char} {content : List Glyph}
      (written : AreUnitDigits digits unit) (least : 0xD800 ≤ unit) (most : unit < 0xE000)
      (alone : unit < 0xDC00 → ¬StartsTrail chars) (rest : StringSpelling content chars) :
      StringSpelling (none :: content) ('\\' :: 'u' :: (digits ++ chars))

/-! ## Numbers -/

def AreDigits (chars : List Char) : Prop := chars ≠ [] ∧ ∀ char ∈ chars, char.isDigit = true

/-- The whole part of a number has no zero in front of other digits. -/
inductive IsWhole : List Char → Prop
  | zero : IsWhole ['0']
  | digits {first : Char} {rest : List Char} (digit : first.isDigit = true) (leads : first ≠ '0')
      (digits : ∀ char ∈ rest, char.isDigit = true) : IsWhole (first :: rest)

inductive IsFraction : List Char → Prop
  | absent : IsFraction []
  | digits {chars : List Char} (digits : AreDigits chars) : IsFraction ('.' :: chars)

inductive IsPower : List Char → Prop
  | absent : IsPower []
  | digits {mark : Char} {sign chars : List Char} (marked : mark = 'e' ∨ mark = 'E')
      (signed : sign = [] ∨ sign = ['+'] ∨ sign = ['-']) (digits : AreDigits chars) :
      IsPower (mark :: (sign ++ chars))

/-- A number: a sign, a whole part, a fraction and a power of ten. -/
inductive IsNumberText : List Char → Prop
  | mk {sign whole fraction power : List Char} (signed : sign = [] ∨ sign = ['-'])
      (isWhole : IsWhole whole) (isFraction : IsFraction fraction) (isPower : IsPower power) :
      IsNumberText (sign ++ (whole ++ (fraction ++ power)))

/-! ## Tokens -/

inductive Token.Spelling : Token → List Char → Prop
  | openArray : Spelling .openArray ['[']
  | closeArray : Spelling .closeArray [']']
  | openObject : Spelling .openObject ['\x7b']
  | closeObject : Spelling .closeObject ['\x7d']
  | colon : Spelling .colon [':']
  | comma : Spelling .comma [',']
  | null : Spelling .null ['n', 'u', 'l', 'l']
  | wordTrue : Spelling (.bool true) ['t', 'r', 'u', 'e']
  | wordFalse : Spelling (.bool false) ['f', 'a', 'l', 's', 'e']
  | number {digits : String} (number : IsNumberText digits.toList) :
      Spelling (.number digits) digits.toList
  | string {content : List Glyph} {chars : List Char} (spelled : StringSpelling content chars) :
      Spelling (.string ((characters? content).map String.ofList)) ('"' :: (chars ++ ['"']))

def Token.isMark : Token → Bool
  | .openArray | .closeArray | .openObject | .closeObject | .colon | .comma => true
  | _ => false

def AreSpaces (chars : List Char) : Prop := ∀ char ∈ chars, char ∈ [' ', '\t', '\n', '\r']

theorem areSpaces_nil : AreSpaces [] := fun _ inside => absurd inside (by simp)

/-- The texts of a list of tokens, with white space before and after every token, or none. -/
inductive TokensSpelling : List Token → List Char → Prop
  | nil {spaces : List Char} (blank : AreSpaces spaces) : TokensSpelling [] spaces
  | cons {token : Token} {tokens : List Token} {spaces chars following : List Char}
      (blank : AreSpaces spaces) (spelled : token.Spelling chars)
      (rest : TokensSpelling tokens following) :
      TokensSpelling (token :: tokens) (spaces ++ (chars ++ following))

/-! ## Values -/

mutual

def Value.tokens : Value → List Token
  | .null => [.null]
  | .bool value => [.bool value]
  | .number digits => [.number digits]
  | .string content => [.string content]
  | .array items => .openArray :: (itemTokens items ++ [.closeArray])
  | .object members => .openObject :: (memberTokens members ++ [.closeObject])

def itemTokens : List Value → List Token
  | [] => []
  | item :: items => item.tokens ++ laterItemTokens items

def laterItemTokens : List Value → List Token
  | [] => []
  | item :: items => .comma :: (item.tokens ++ laterItemTokens items)

def memberTokens : List (Option String × Value) → List Token
  | [] => []
  | (key, value) :: members => .string key :: .colon :: (value.tokens ++ laterMemberTokens members)

def laterMemberTokens : List (Option String × Value) → List Token
  | [] => []
  | (key, value) :: members =>
    .comma :: .string key :: .colon :: (value.tokens ++ laterMemberTokens members)

end

def Value.Spelling (value : Value) (chars : List Char) : Prop := TokensSpelling value.tokens chars

end PlanGraph.Json
