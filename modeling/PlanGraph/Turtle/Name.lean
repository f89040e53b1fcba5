import PlanGraph.Text.CharClass
import PlanGraph.Text.Decoding

/-! Local names and the labels of blank nodes in Turtle documents. A dot inside of either belongs to
it, and a dot at its end does not. -/

set_option autoImplicit false
namespace PlanGraph.Turtle
open Text

inductive LocalUnit
  | plain (char : Char)
  | percent (high low : Char)
  | escaped (char : Char)
deriving DecidableEq, Repr

namespace LocalUnit

def value : LocalUnit → List Char
  | .plain char => [char]
  | .percent high low => ['%', high, low]
  | .escaped char => [char]

def isEscaped : LocalUnit → Bool
  | .escaped _ => true
  | _ => false

def isDot (unit : LocalUnit) : Bool := unit = .plain '.'

/-- The characters that cast doubt on a name: some that IRIs do not hold, and the multiples of two
numbers next to the end of the first plane. -/
def isSuspect (char : Char) : Bool :=
  inRanges [(0xFFF0, 0xFFFD)] char || char.toNat % 0xFFFE == 0 || char.toNat % 0xFFFF == 0

/-- Tells whether a unit may be out of place behind a namespace. Other units can follow any namespace
that has a path. -/
def isDoubtful : LocalUnit → Bool
  | .plain char => char == ':' || isSuspect char
  | .percent _ _ => false
  | .escaped char => ['/', '?', '#', '@', '%'].contains char

end LocalUnit

def localUnits? : List Glyph → Option (List LocalUnit × List Glyph)
  | [] => some ([], [])
  | none :: _ => none
  | some '%' :: some high :: some low :: rest =>
    if isHexDigit high && isHexDigit low then
      (localUnits? rest).map fun (units, after) => (.percent high low :: units, after)
    else none
  | some '%' :: _ => none
  | some '\\' :: some char :: rest =>
    if isLocalEscape char then
      (localUnits? rest).map fun (units, after) => (.escaped char :: units, after)
    else none
  | some '\\' :: _ => none
  | some char :: rest =>
    if isNameChar char || char == ':' || char == '.' then
      (localUnits? rest).map fun (units, after) => (.plain char :: units, after)
    else some ([], some char :: rest)

structure LocalName where
  text : List Char
  doubtful : Bool
deriving DecidableEq, Repr

def LocalName.ofUnits (units : List LocalUnit) (doubtful : Bool) : LocalName :=
  ⟨units.flatMap LocalUnit.value, doubtful⟩

def startsLocal (char : Char) : Bool :=
  isNameStart char || char == ':' || char.isDigit || char == '%' || char == '\\'

/-- A name before another character: dots at its end are given back, unless a backslash keeps
them. -/
def nameBefore (units : List LocalUnit) (doubtful : Bool) (rest : List Glyph) :
    LocalName × List Glyph :=
  let dots := (units.reverse.takeWhile LocalUnit.isDot).length
  (.ofUnits (units.take (units.length - dots)) doubtful, List.replicate dots (some '.') ++ rest)

/-- A name with a backslash that the document ends in. It reaches to its last escaped character, and
every dot at the end of that gives back one glyph. -/
def nameAtEnd (units : List LocalUnit) (doubtful : Bool) (glyphs : List Glyph) :
    LocalName × List Glyph :=
  let text := (units.reverse.dropWhile (!·.isEscaped)).reverse.flatMap LocalUnit.value
  let dots := (text.reverse.takeWhile (· == '.')).length
  (⟨text.take (text.length - dots), doubtful⟩, glyphs.drop (glyphs.length - dots))

def localName? (glyphs : List Glyph) : Option (LocalName × List Glyph) :=
  if (glyphs.head?.bind id).any startsLocal then
    (localUnits? glyphs).map fun (units, rest) =>
      let doubtful := units.any LocalUnit.isDoubtful
      if rest.isEmpty && units.any LocalUnit.isEscaped then nameAtEnd units doubtful glyphs
      else nameBefore units doubtful rest
  else some (⟨[], false⟩, glyphs)

/-- The rest of a label. A dot belongs to it if the label goes on right after the dot. Only the
character after a label tells where it ends. -/
def labelTail? : List Glyph → Option (List Char × List Glyph)
  | some '.' :: some next :: rest =>
    if isNameChar next then
      (labelTail? rest).map fun (tail, after) => ('.' :: next :: tail, after)
    else some ([], some '.' :: some next :: rest)
  | some '.' :: _ => none
  | some char :: rest =>
    if isNameChar char then (labelTail? rest).map fun (tail, after) => (char :: tail, after)
    else some ([], some char :: rest)
  | _ => none

end PlanGraph.Turtle
