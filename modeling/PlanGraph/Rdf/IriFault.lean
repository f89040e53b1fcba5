import PlanGraph.Rdf.Iri

/-! What is wrong with a text that is no absolute IRI. The text is read from left to right up to the
first fault. A missing scheme is found last, because the text is a relative reference until then. -/

set_option autoImplicit false
namespace PlanGraph.Rdf
open Text

inductive IriFault
  | noScheme
  | hostCharacter (char : Char)
  | hostAddress
  | portCharacter (char : Char)
  | character (char : Char)
  | percentEncoding (chars : List Char)
deriving DecidableEq, Repr

def IriFault.message : IriFault → String
  | .noScheme => "No scheme found in an absolute IRI"
  | .hostCharacter char => "Invalid character '" ++ String.singleton char ++ "' in host"
  | .hostAddress => "Invalid host IP (invalid IPv6 address syntax)"
  | .portCharacter char => "Invalid character '" ++ String.singleton char ++ "'"
  | .character char => "Invalid IRI code point '" ++ String.singleton char ++ "'"
  | .percentEncoding chars => "Invalid IRI percent encoding '" ++ String.ofList chars ++ "'"

/-- The first fault of a component. A percent sign takes the next two characters of the text, also
where these stand behind the component. -/
def componentFault? (allowed : Char → Bool) (behind : List Char) : List Char → Option IriFault
  | [] => none
  | '%' :: high :: low :: rest =>
    if isHexDigit high && isHexDigit low then componentFault? allowed behind rest
    else some (.percentEncoding ['%', high, low])
  | char :: rest =>
    if char == '%' then some (.percentEncoding ('%' :: (rest ++ behind).take 2))
    else if allowed char then componentFault? allowed behind rest
    else some (.character char)

/-- The fault of an address of a later version, after its `v`. Where something is missing, the closing
bracket is out of place. -/
def futureAddressFault? (chars : List Char) : Option IriFault :=
  match cutAt? '.' chars with
  | none => some (.hostCharacter ((chars.find? (!isHexDigit ·)).getD ']'))
  | some (version, address) =>
    match version.find? (!isHexDigit ·) with
    | some char => some (.hostCharacter char)
    | none =>
      if version.isEmpty || address.isEmpty then some (.hostCharacter (address.headD ']'))
      else (address.find? (!isFutureAddressChar ·)).map .hostCharacter

def addressFault? (chars : List Char) : Option IriFault :=
  match chars with
  | 'v' :: rest => futureAddressFault? rest
  | 'V' :: rest => futureAddressFault? rest
  | _ => if isIpv6 chars then none else some .hostAddress

def serviceNumberFault? : List Char → Option IriFault
  | [] => none
  | first :: digits =>
    if first == ':' then (digits.find? (!Char.isDigit ·)).map .portCharacter
    else some (.hostCharacter first)

/-- The fault of a host. An address reaches up to the first closing bracket of the whole text. -/
def hostFault? (behind chars : List Char) : Option IriFault :=
  match chars with
  | '[' :: rest =>
    match cutAt? ']' rest with
    | some (address, after) => addressFault? address <|> serviceNumberFault? after
    | none =>
      match cutAt? ']' behind with
      | some (more, _) => addressFault? (rest ++ more)
      | none => some (.hostCharacter '[')
  | _ =>
    let (name, service) := cutBefore [':'] chars
    componentFault? isNameSegmentChar (service ++ behind) name <|> serviceNumberFault? service

/-- The fault of an authority. What stands before a possible `@` is read as a user first. -/
def authorityFault? (behind chars : List Char) : Option IriFault :=
  let (user, after) := cutBefore ['@', '['] chars
  componentFault? isUserChar (after ++ behind) user
    <|> hostFault? behind (if after.head? = some '@' then after.tail else chars)

def IriParts.fault? (parts : IriParts) : Option IriFault :=
  let fromFragment := (parts.fragment.map ('#' :: ·)).getD []
  let fromQuery := (parts.query.map ('?' :: ·)).getD [] ++ fromFragment
  parts.authority.bind (authorityFault? (parts.path ++ fromQuery))
    <|> componentFault? isPathChar fromQuery parts.path
    <|> parts.query.bind (componentFault? isQueryChar fromFragment)
    <|> parts.fragment.bind (componentFault? isFragmentChar [])

def iriFault? (chars : List Char) : Option IriFault :=
  let parts := IriParts.ofChars chars
  if chars.head? = some ':' then some .noScheme
  else parts.fault? <|> if parts.scheme.isSome then none else some .noScheme

end PlanGraph.Rdf
