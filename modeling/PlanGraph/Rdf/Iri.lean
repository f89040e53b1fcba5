import PlanGraph.Text.CharClass
import PlanGraph.Text.Split

/-! Internationalized resource identifiers: the grammar of RFC 3987 for absolute IRIs, and the
resolution of references against a base along the lines of RFC 3986. No normal form is imposed on an
IRI: only the segments of a relative path are ever resolved. -/

set_option autoImplicit false
namespace PlanGraph

/-- An IRI as it is written. Names without a known namespace stay as they are, so an IRI need not
be absolute. -/
abbrev Iri := String

namespace Rdf
open Text

structure IriParts where
  scheme : Option (List Char)
  authority : Option (List Char)
  path : List Char
  query : Option (List Char)
  fragment : Option (List Char)
deriving DecidableEq

def isSchemeChar (char : Char) : Bool :=
  char.isAlphanum || char == '+' || char == '-' || char == '.'

def cutScheme? (chars : List Char) : Option (List Char × List Char) :=
  match cutAt? ':' chars with
  | some (first :: rest, after) =>
    if first.isAlpha && rest.all isSchemeChar then some (first :: rest, after) else none
  | _ => none

def cutBefore (delimiters : List Char) (chars : List Char) : List Char × List Char :=
  (chars.takeWhile (!delimiters.contains ·), chars.dropWhile (!delimiters.contains ·))

def IriParts.ofChars (chars : List Char) : IriParts :=
  let (scheme, hierarchy) :=
    match cutScheme? chars with
    | some (scheme, after) => (some scheme, after)
    | none => (none, chars)
  let (authority, afterAuthority) :=
    match after? ['/', '/'] hierarchy with
    | some rest => let (authority, rest) := cutBefore ['/', '?', '#'] rest; (some authority, rest)
    | none => (none, hierarchy)
  let (path, afterPath) := cutBefore ['?', '#'] afterAuthority
  let (query, afterQuery) :=
    match afterPath with
    | '?' :: rest => let (query, rest) := cutBefore ['#'] rest; (some query, rest)
    | _ => (none, afterPath)
  let fragment :=
    match afterQuery with
    | '#' :: rest => some rest
    | _ => none
  ⟨scheme, authority, path, query, fragment⟩

def IriParts.toChars (parts : IriParts) : List Char :=
  (parts.scheme.map (· ++ [':'])).getD [] ++ (parts.authority.map (['/', '/'] ++ ·)).getD []
    ++ parts.path ++ (parts.query.map ('?' :: ·)).getD [] ++ (parts.fragment.map ('#' :: ·)).getD []

def isSubDelimiter (char : Char) : Bool :=
  ['!', '$', '&', '\x27', '(', ')', '*', '+', ',', ';', '='].contains char

def isAsciiUnreserved (char : Char) : Bool :=
  char.isAlphanum || ['-', '.', '_', '~'].contains char

def isUcsChar (char : Char) : Bool :=
  inRanges
    [(0xA0, 0xD7FF), (0xF900, 0xFDCF), (0xFDF0, 0xFFEF), (0x10000, 0x1FFFD), (0x20000, 0x2FFFD),
     (0x30000, 0x3FFFD), (0x40000, 0x4FFFD), (0x50000, 0x5FFFD), (0x60000, 0x6FFFD),
     (0x70000, 0x7FFFD), (0x80000, 0x8FFFD), (0x90000, 0x9FFFD), (0xA0000, 0xAFFFD),
     (0xB0000, 0xBFFFD), (0xC0000, 0xCFFFD), (0xD0000, 0xDFFFD), (0xE1000, 0xEFFFD)] char

def isPrivateChar (char : Char) : Bool :=
  inRanges [(0xE000, 0xF8FF), (0xF0000, 0xFFFFD), (0x100000, 0x10FFFD)] char

def isNameSegmentChar (char : Char) : Bool :=
  isAsciiUnreserved char || isSubDelimiter char || isUcsChar char

def isUserChar (char : Char) : Bool := isNameSegmentChar char || char == ':'

def isPathChar (char : Char) : Bool :=
  isNameSegmentChar char || char == ':' || char == '@' || char == '/'

def isFragmentChar (char : Char) : Bool := isPathChar char || char == '?'

def isQueryChar (char : Char) : Bool := isFragmentChar char || isPrivateChar char

def consistsOf (allowed : Char → Bool) : List Char → Bool
  | [] => true
  | '%' :: high :: low :: rest => isHexDigit high && isHexDigit low && consistsOf allowed rest
  | char :: rest => char != '%' && allowed char && consistsOf allowed rest

/-- A decimal number up to 255 without leading zeros. -/
def isOctet (digits : List Char) : Bool :=
  digits.all Char.isDigit && (digits.length == 1 || (digits.length ≤ 3 && digits.head? != some '0'
    && decimalValue digits ≤ 255))
    && !digits.isEmpty

def isIpv4 (chars : List Char) : Bool :=
  let octets := splitOn '.' chars
  octets.length == 4 && octets.all isOctet

def isHexGroup (digits : List Char) : Bool :=
  !digits.isEmpty && digits.length ≤ 4 && digits.all isHexDigit

/-- The number of 16-bit groups in a list of groups between colons. The last one may be an IPv4
address, which counts as two. -/
def groupCount? (ipv4Allowed : Bool) : List (List Char) → Option Nat
  | [] => some 0
  | [last] =>
    if isHexGroup last then some 1
    else if ipv4Allowed && isIpv4 last then some 2
    else none
  | group :: rest =>
    if isHexGroup group then (groupCount? ipv4Allowed rest).map (· + 1) else none

def groupsBetweenColons (chars : List Char) : List (List Char) :=
  if chars.isEmpty then [] else splitOn ':' chars

/-- Cuts at the first pair of colons, which stands for at least one group of zeros. -/
def cutAtGap? : List Char → Option (List Char × List Char)
  | [] => none
  | [_] => none
  | ':' :: ':' :: rest => some ([], rest)
  | first :: rest => (cutAtGap? rest).map fun halves => (first :: halves.1, halves.2)

def isIpv6 (chars : List Char) : Bool :=
  match cutAtGap? chars with
  | none => groupCount? true (groupsBetweenColons chars) == some 8
  | some (head, tail) =>
    match groupCount? false (groupsBetweenColons head), groupCount? true (groupsBetweenColons tail) with
    | some before, some after => before + after ≤ 7
    | _, _ => false

def isFutureAddressChar (char : Char) : Bool :=
  isAsciiUnreserved char || isSubDelimiter char || char == ':'

def isFutureAddress (chars : List Char) : Bool :=
  match chars with
  | [] => false
  | first :: rest =>
    (first == 'v' || first == 'V') &&
      match cutAt? '.' rest with
      | some (version, address) =>
        !version.isEmpty && version.all isHexDigit && !address.isEmpty
          && address.all isFutureAddressChar
      | none => false

def isServiceNumber : List Char → Bool
  | [] => true
  | first :: digits => first == ':' && digits.all Char.isDigit

def isHost (chars : List Char) : Bool :=
  match chars with
  | '[' :: rest =>
    match cutAt? ']' rest with
    | some (address, after) => (isFutureAddress address || isIpv6 address) && isServiceNumber after
    | none => false
  | _ =>
    consistsOf isNameSegmentChar (chars.takeWhile (· != ':'))
      && isServiceNumber (chars.dropWhile (· != ':'))

def isAuthority (chars : List Char) : Bool :=
  match cutAt? '@' chars with
  | some (user, host) => consistsOf isUserChar user && isHost host
  | none => isHost chars

/-- A path without an authority before it does not look like one. -/
def fitsBehind (authority : Option (List Char)) (path : List Char) : Bool :=
  authority.isSome || (after? ['/', '/'] path).isNone

def IriParts.isWellFormed (parts : IriParts) : Bool :=
  parts.authority.all isAuthority && consistsOf isPathChar parts.path
    && fitsBehind parts.authority parts.path
    && parts.query.all (consistsOf isQueryChar) && parts.fragment.all (consistsOf isFragmentChar)

def isAbsoluteIri (chars : List Char) : Bool :=
  let parts := IriParts.ofChars chars
  parts.scheme.isSome && parts.isWellFormed

/-- A relative reference has no colon in the first segment of its path, where one would end a
scheme. -/
def IriParts.isReference (parts : IriParts) : Bool :=
  parts.isWellFormed
    && (parts.authority.isSome || !(parts.path.takeWhile (· != '/')).contains ':')

def directory (path : List Char) : List Char := (path.reverse.dropWhile (· != '/')).reverse

def isDots (segment : List Char) : Bool := segment = ['.'] || segment = ['.', '.']

/-- The path that a segment leads to from a directory. Two dots go up by one directory, and from the
topmost one to the root. -/
def enter (root current segment : List Char) : List Char :=
  if segment = ['.'] then current
  else if segment = ['.', '.'] then
    let parent := directory current.dropLast
    if parent.isEmpty then root else parent
  else current ++ segment

def walk? (authority : Option (List Char)) (root current : List Char) :
    List (List Char) → Option (List Char)
  | [] => some current
  | segment :: rest =>
    let reached := enter root current segment
    if fitsBehind authority reached then
      walk? authority root (if rest.isEmpty || isDots segment then reached else reached ++ ['/']) rest
    else none

/-- The path that a relative path leads to. Dots count as steps in the reference only; in the base
they are names like others. -/
def IriParts.resolvePath? (base : IriParts) (path : List Char) : Option (List Char) :=
  let root := if base.authority.isSome then ['/'] else []
  match path with
  | '/' :: rest => walk? base.authority root ['/'] (splitOn '/' rest)
  | _ =>
    let start := directory base.path
    walk? base.authority root (if start.isEmpty then root else start) (splitOn '/' path)

/-- The target of a relative reference: missing leading components come from the base. -/
def IriParts.resolveAgainst? (base reference : IriParts) : Option IriParts :=
  if reference.authority.isSome then some { reference with scheme := base.scheme }
  else if reference.path.isEmpty then
    some { base with query := reference.query <|> base.query, fragment := reference.fragment }
  else
    (base.resolvePath? reference.path).map fun path =>
      { reference with scheme := base.scheme, authority := base.authority, path }

/-- Reads an IRI reference. Absolute IRIs stay as they are, and without a base nothing else is
accepted. -/
def resolveIri? (base : Option Iri) (written : List Char) : Option Iri :=
  let reference := IriParts.ofChars written
  if reference.scheme.isSome then
    if reference.isWellFormed then some (String.ofList written) else none
  else do
    guard reference.isReference
    let target ← (IriParts.ofChars (← base).toList).resolveAgainst? reference
    return String.ofList target.toChars

end Rdf
end PlanGraph
