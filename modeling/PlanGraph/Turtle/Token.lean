import PlanGraph.Rdf.LiteralText
import PlanGraph.Turtle.Name

/-! The tokens of Turtle documents. -/

set_option autoImplicit false
namespace PlanGraph.Turtle
open Rdf Text

/-- A token. IRIs and names are resolved only when they are used; a fault is where no token can be
read. -/
inductive Token
  | iri (written : List Char)
  | name (namePrefix : List Char) (localName : LocalName)
  | blank (label : List Char)
  | string (content : List Char)
  | number (literal : Literal)
  | language (tag : List Char)
  | word (letters : List Char)
  | mark (symbol : Char)
  | datatypeMark
  | fault
deriving DecidableEq, Repr

def isSpace (char : Char) : Bool := char == ' ' || char == '\t' || char == '\n' || char == '\r'

def isLineEnd (glyph : Glyph) : Bool := glyph == some '\n' || glyph == some '\r'

def isMark (char : Char) : Bool := ['.', ';', ',', '[', ']', '(', ')'].contains char

abbrev Scanned := Token × List Glyph

def faulty : Scanned := (.fault, [])

def iriEscapes : EscapeRules := ⟨false, false⟩

def stringEscapes : EscapeRules := ⟨true, false⟩

def scanIri (glyphs : List Glyph) : Scanned :=
  match cutAtClosing? (some '\\') [some '>'] glyphs with
  | none => faulty
  | some (written, rest) =>
    match (characters? written).bind (unescape? iriEscapes) with
    | some iri => (.iri iri, rest)
    | none => faulty

def scanString (quotes : List Glyph) (lineEnds : Bool) (glyphs : List Glyph) : Scanned :=
  match cutAtClosing? (some '\\') quotes glyphs with
  | none => faulty
  | some (written, rest) =>
    if !lineEnds && written.any isLineEnd then faulty
    else
      match (characters? written).bind (unescape? stringEscapes) with
      | some content => (.string content, rest)
      | none => faulty

/-- A string after its first quote. Two more quotes make it a long string, which may hold line
ends. -/
def scanQuoted (quote : Char) (glyphs : List Glyph) : Scanned :=
  match after? [some quote, some quote] glyphs with
  | some rest => scanString [some quote, some quote, some quote] true rest
  | none => scanString [some quote] false glyphs

def tagLetters : List Glyph → List Char × List Glyph
  | some '-' :: some next :: rest =>
    if next.isAlpha then
      let (letters, after) := tagLetters rest
      ('-' :: next :: letters, after)
    else ([], some '-' :: some next :: rest)
  | some char :: rest =>
    if char.isAlpha then
      let (letters, after) := tagLetters rest
      (char :: letters, after)
    else ([], some char :: rest)
  | glyphs => ([], glyphs)

def scanLanguage (glyphs : List Glyph) : Scanned :=
  let (tag, rest) := tagLetters glyphs
  if isLanguageTag (tag.map Char.toLower) then (.language tag, rest) else faulty

def scanBlank : List Glyph → Scanned
  | some ':' :: some first :: rest =>
    if isNameStart first || first.isDigit then
      match labelTail? rest with
      | some (tail, rest) => (.blank (first :: tail), rest)
      | none => faulty
    else faulty
  | _ => faulty

def scanLocal (namePrefix : List Char) (glyphs : List Glyph) : Scanned :=
  if namePrefix.getLast? = some '.' then faulty
  else
    match localName? glyphs with
    | some (localName, rest) => (.name namePrefix localName, rest)
    | none => faulty

/-- A word, or a name if a colon follows. Dots at the end do not belong to a word. -/
def scanWord (first : Char) (glyphs : List Glyph) : Scanned :=
  if first = ':' then scanLocal [] glyphs
  else if isNameLetter first then
    let (tail, rest) := spanGlyphs (fun char => isNameChar char || char == '.') glyphs
    match rest with
    | some ':' :: rest => scanLocal (first :: tail) rest
    | _ =>
      let dots := tail.reverse.takeWhile (· == '.')
      (.word (first :: tail.take (tail.length - dots.length)), dots.map some ++ rest)
  else faulty

def numberToken (written : List Char) (datatype : Iri) : Token :=
  .number (.typed (String.ofList written) datatype)

def cutSign : List Glyph → List Char × List Glyph
  | some '+' :: rest => (['+'], rest)
  | some '-' :: rest => (['-'], rest)
  | glyphs => ([], glyphs)

def exponent? (glyphs : List Glyph) : Option (List Char × List Glyph) :=
  let (sign, unsigned) := cutSign glyphs
  let (digits, rest) := spanGlyphs Char.isDigit unsigned
  if digits.isEmpty then none else some (sign ++ digits, rest)

def exponentLetter? : List Glyph → Option (Char × List Glyph)
  | some char :: rest => if char = 'e' ∨ char = 'E' then some (char, rest) else none
  | _ => none

/-- A number from its sign on. A dot without digits after it ends an integer, unless an exponent
follows the dot. -/
def scanNumber (glyphs : List Glyph) : Scanned :=
  let (sign, unsigned) := cutSign glyphs
  let (whole, afterWhole) := spanGlyphs Char.isDigit unsigned
  let (fraction, afterFraction) :=
    match afterWhole with
    | some '.' :: rest =>
      let (digits, rest) := spanGlyphs Char.isDigit rest
      (some digits, rest)
    | _ => (none, afterWhole)
  let mantissa := sign ++ whole ++ (fraction.map ('.' :: ·)).getD []
  match exponentLetter? afterFraction with
  | some (letter, rest) =>
    match exponent? rest with
    | some (power, rest) =>
      if whole.isEmpty && fraction.all List.isEmpty then faulty
      else (numberToken (mantissa ++ letter :: power) Vocabulary.xsdDouble, rest)
    | none => faulty
  | none =>
    if fraction.any fun digits => !digits.isEmpty then
      (numberToken mantissa Vocabulary.xsdDecimal, afterFraction)
    else if whole.isEmpty then faulty
    else (numberToken (sign ++ whole) Vocabulary.xsdInteger, afterWhole)

def isNumberAhead : List Glyph → Bool
  | some '.' :: some next :: _ => next.isDigit
  | some first :: _ => first.isDigit || first == '+' || first == '-'
  | _ => false

def scan (first : Char) (rest : List Glyph) : Scanned :=
  if isNumberAhead (some first :: rest) then scanNumber (some first :: rest)
  else if isMark first then (.mark first, rest)
  else
    match first with
    | '<' => scanIri rest
    | '"' => scanQuoted '"' rest
    | '\x27' => scanQuoted '\x27' rest
    | '@' => scanLanguage rest
    | '_' => scanBlank rest
    | '^' => if rest.head? = some (some '^') then (.datatypeMark, rest.drop 1) else faulty
    | _ => scanWord first rest

/-- The tokens up to the end or the first fault. Each takes at least one glyph, so the number of
glyphs bounds their number. Comments may hold stray bytes. -/
def tokensFrom : Nat → List Glyph → List Token
  | 0, _ => []
  | _ + 1, [] => []
  | _ + 1, none :: _ => [.fault]
  | fuel + 1, some first :: rest =>
    if isSpace first then tokensFrom fuel rest
    else if first = '#' then tokensFrom fuel (rest.dropWhile (!isLineEnd ·))
    else
      let (token, rest) := scan first rest
      if token = .fault then [.fault] else token :: tokensFrom fuel rest

def tokens (glyphs : List Glyph) : List Token := tokensFrom glyphs.length glyphs

end PlanGraph.Turtle
