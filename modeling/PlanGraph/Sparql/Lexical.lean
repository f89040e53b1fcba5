import PlanGraph.Rdf.LiteralText
import PlanGraph.Sparql.Parser

/-! The terminals of queries: white space, names, IRIs, strings and numbers. -/

set_option autoImplicit false
namespace PlanGraph.Sparql
open Rdf Text

def isSpace (char : Char) : Bool := char == ' ' || char == '\t' || char == '\n' || char == '\r'

def isLineEnd (char : Char) : Bool := char == '\n' || char == '\r'

def skipSpace (inComment : Bool) : List Char → List Char
  | [] => []
  | char :: rest =>
    if inComment then skipSpace (!isLineEnd char) rest
    else if isSpace char then skipSpace false rest
    else if char = '#' then skipSpace true rest
    else char :: rest

def space : Parser Unit := modify (skipSpace false)

def lexeme {α : Type} (parser : Parser α) : Parser α := do
  let value ← parser
  space
  return value

def word (text : String) : Parser Unit := lexeme (keyword text)

def mark (text : String) : Parser Unit := lexeme (symbol text)

/-- The characters that names in queries are made of lie in the first plane. -/
def inFirstPlane (char : Char) : Bool := char.toNat < 0x10000

def isQueryLetter (char : Char) : Bool := isNameLetter char && inFirstPlane char

def isQueryNameStart (char : Char) : Bool := isNameStart char && inFirstPlane char

def isQueryNameChar (char : Char) : Bool := isNameChar char && inFirstPlane char

def startsVariable (char : Char) : Bool := char.isDigit || isQueryNameStart char

/-- A run of name characters and dots that does not end in a dot. -/
def dottedRun : Parser (List Char) :=
  cutInput fun chars =>
    let run := chars.takeWhile fun char => isQueryNameChar char || char == '.'
    let dots := (run.reverse.takeWhile (· == '.')).length
    some (run.take (run.length - dots), chars.drop (run.length - dots))

def namePrefix : Parser (List Char) :=
  (do
    let first ← satisfy isQueryLetter
    let rest ← dottedRun
    return first :: rest) <|> pure []

def prefixColon : Parser String := do
  let name ← namePrefix
  symbol ":"
  return String.ofList name

def escapedLocal : Parser (List Char) :=
  (do
    symbol "%"
    let high ← satisfy isHexDigit
    let low ← satisfy isHexDigit
    return ['%', high, low])
  <|> (do
    symbol "\\"
    return [← satisfy isLocalEscape])

def localUnit (kind : Char → Bool) : Parser (List Char) :=
  (do return [← satisfy kind]) <|> escapedLocal

def innerLocal : Parser (List Char) := localUnit fun char => isQueryNameChar char || char == ':'

/-- A local name without its backslashes. Dots may stand in one place of it. -/
def localName : Parser (List Char) := do
  let first ← localUnit fun char => startsVariable char || char == ':'
  let rest ← many innerLocal
  let dotted ← optional do
    let dots ← takeSome (· == '.')
    let more ← many1 innerLocal
    return dots ++ more.flatten
  return first ++ rest.flatten ++ dotted.getD []

def iriEscapes : EscapeRules := ⟨false, true⟩

def stringEscapes : EscapeRules := ⟨true, false⟩

/-- An IRI in angle brackets, resolved against the base. Where it ends is decided before its escape
sequences are replaced. -/
def bracketedIri : Parser Iri := do
  symbol "<"
  let written ← cutInput (cutAt? '>')
  let reference ← ofOption (unescape? iriEscapes written)
  ofOption (resolveIri? (← context).base reference)

def namespaceOf (name : String) : Parser Iri := do
  ofOption ((← context).prefixes.find? name)

/-- A name under a declared prefix, which has to make up an absolute IRI. -/
def prefixedIri : Parser Iri :=
  (do
    let namespaceIri ← namespaceOf (← prefixColon)
    ofOption (resolveIri? none (namespaceIri.toList ++ (← localName))))
  <|> (do
    let namespaceIri ← namespaceOf (← prefixColon)
    ofOption (resolveIri? none namespaceIri.toList))

def iri : Parser Iri := bracketedIri <|> prefixedIri

def variableName : Parser String := do
  let _ ← satisfy fun char => char == '?' || char == '$'
  let first ← satisfy startsVariable
  let rest ← takeAll fun char => isVariableChar char && inFirstPlane char
  return String.ofList (first :: rest)

def longString (quote : Char) : Parser (List Char) := do
  let quotes := [quote, quote, quote]
  symbol (String.ofList quotes)
  let written ← cutInput (cutAtClosing? '\\' quotes)
  ofOption (unescape? stringEscapes written)

def shortString (quote : Char) : Parser (List Char) := do
  symbol (String.ofList [quote])
  let written ← cutInput (cutAtClosing? '\\' [quote])
  require !(written.any isLineEnd)
  ofOption (unescape? stringEscapes written)

def string : Parser (List Char) :=
  longString '\x27' <|> longString '"' <|> shortString '\x27' <|> shortString '"'

def languageTag : Parser (List Char) := do
  symbol "@"
  let main ← takeSome Char.isAlpha
  let subtags ← many do
    symbol "-"
    takeSome Char.isAlphanum
  return main ++ subtags.flatMap fun subtag => '-' :: subtag

def stringLiteral : Parser Literal := do
  let content ← string
  (do
    space
    mark "^^"
    return .ofTyped (String.ofList content) (← iri))
  <|> (do
    space
    ofOption (taggedLiteral? content (← languageTag)))
  <|> pure (.simple (String.ofList content))

def digits : Parser (List Char) := takeSome Char.isDigit

def exponent : Parser (List Char) := do
  let letter ← satisfy fun char => char == 'e' || char == 'E'
  let sign ← optional (satisfy fun char => char == '+' || char == '-')
  return letter :: sign.toList ++ (← digits)

def unsignedNumber : Parser (List Char × Iri) :=
  (do
    let mantissa ←
      (do
        let whole ← digits
        symbol "."
        return whole ++ '.' :: (← takeAll Char.isDigit))
      <|> (do
        symbol "."
        return '.' :: (← digits))
      <|> digits
    return (mantissa ++ (← exponent), Vocabulary.xsdDouble))
  <|> (do
    let whole ← takeAll Char.isDigit
    symbol "."
    return (whole ++ '.' :: (← digits), Vocabulary.xsdDecimal))
  <|> (do return (← digits, Vocabulary.xsdInteger))

/-- A number, whose sign may stand apart. -/
def numericLiteral : Parser Literal := do
  let sign ← optional (lexeme (satisfy fun char => char == '+' || char == '-'))
  let (written, datatype) ← unsignedNumber
  return .typed (String.ofList (sign.toList ++ written)) datatype

def booleanLiteral : Parser Literal :=
  (do symbol "true"; return .typed "true" Vocabulary.xsdBoolean)
  <|> (do symbol "false"; return .typed "false" Vocabulary.xsdBoolean)

/-- Two brackets with nothing but white space between them; a comment would be too much. -/
def emptyBrackets (opening closing : String) : Parser Unit := do
  symbol opening
  let _ ← takeAll isSpace
  symbol closing

/-- A label may not come back in another group. -/
def labelledNode : Parser Term := do
  symbol "_:"
  let first ← satisfy startsVariable
  let rest ← dottedRun
  let label := String.ofList (first :: rest)
  require !((← context).usedLabels.contains label)
  modifyContext fun context =>
    { context with currentLabels := context.currentLabels.insert label }
  return .blank label

/-- The labels read so far belong to a group that has ended or has not begun. -/
def closeLabels : Parser Unit :=
  modifyContext fun context =>
    { context with
      usedLabels := context.usedLabels.union context.currentLabels
      currentLabels := ∅ }

end PlanGraph.Sparql
