import PlanGraph.Rdf.LanguageTag
import PlanGraph.Rdf.Vocabulary
import PlanGraph.Text.Blank
import PlanGraph.Text.Escape

/-! Reading a literal from a text: a quoted string with an optional language tag or datatype, or a
bare number. -/

set_option autoImplicit false
namespace PlanGraph.Rdf
open Text

def literalEscapes : EscapeRules := ⟨true, false⟩

def datatypeEscapes : EscapeRules := ⟨false, false⟩

/-- Language tags are kept in lower case. -/
def taggedLiteral? (value language : List Char) : Option Literal :=
  let tag := language.map Char.toLower
  if isLanguageTag tag then some (.tagged (String.ofList value) (String.ofList tag)) else none

def bracketedIri? (chars : List Char) : Option Iri :=
  match chars with
  | '<' :: rest =>
    match cutAt? '>' rest with
    | some (written, []) => (unescape? datatypeEscapes written).bind (resolveIri? none)
    | _ => none
  | _ => none

def literalWithSuffix? (value suffix : List Char) : Option Literal :=
  match trimStart suffix with
  | [] => some (.simple (String.ofList value))
  | '@' :: language =>
    if language.all fun char => char.isAlpha || char == '-' then taggedLiteral? value language
    else none
  | '^' :: '^' :: datatype =>
    (bracketedIri? (trimStart datatype)).map (Literal.ofTyped (String.ofList value))
  | _ => none

/-- The digits of a number: before the dot, after the dot if there is one, and after the `e` if
there is one. -/
structure NumberParts where
  whole : List Char
  fraction : Option (List Char)
  exponent : Option (List Char)

def withoutSign : List Char → List Char
  | '+' :: rest => rest
  | '-' :: rest => rest
  | chars => chars

def NumberParts.ofChars? (chars : List Char) : Option NumberParts :=
  let unsigned := withoutSign chars
  let whole := unsigned.takeWhile Char.isDigit
  let (fraction, rest) :=
    match unsigned.dropWhile Char.isDigit with
    | '.' :: rest => (some (rest.takeWhile Char.isDigit), rest.dropWhile Char.isDigit)
    | rest => (none, rest)
  match rest with
  | [] => some ⟨whole, fraction, none⟩
  | 'e' :: power => exponentIn whole fraction (withoutSign power)
  | 'E' :: power => exponentIn whole fraction (withoutSign power)
  | _ => none
where
  exponentIn (whole : List Char) (fraction : Option (List Char)) (power : List Char) :=
    if !power.isEmpty && power.all Char.isDigit then some ⟨whole, fraction, some power⟩ else none

/-- The datatype of a number: an exponent makes a double, digits after the dot a decimal, and
digits without a dot an integer. -/
def NumberParts.datatype? : NumberParts → Option Iri
  | ⟨_, _, some _⟩ => some Vocabulary.xsdDouble
  | ⟨_, some fraction, none⟩ => if fraction.isEmpty then none else some Vocabulary.xsdDecimal
  | ⟨whole, none, none⟩ => if whole.isEmpty then none else some Vocabulary.xsdInteger

def numberLiteral? (chars : List Char) : Option Literal :=
  ((NumberParts.ofChars? chars).bind NumberParts.datatype?).map (.typed (String.ofList chars))

def Literal.ofChars? : List Char → Option Literal
  | '"' :: rest => (readQuoted? literalEscapes '"' rest).bind fun parts => literalWithSuffix? parts.1 parts.2
  | chars => numberLiteral? chars

end PlanGraph.Rdf
