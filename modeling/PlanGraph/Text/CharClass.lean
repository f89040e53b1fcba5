/-! Character classes of the RDF text formats and of SPARQL. The name classes take the productions
`PN_CHARS_BASE`, `PN_CHARS_U`, `PN_CHARS` and `VARNAME`. -/

set_option autoImplicit false
namespace PlanGraph.Text

def inRanges (ranges : List (Nat × Nat)) (char : Char) : Bool :=
  ranges.any fun range => range.1 ≤ char.toNat && char.toNat ≤ range.2

def letterRanges : List (Nat × Nat) :=
  [(0xC0, 0xD6), (0xD8, 0xF6), (0xF8, 0x2FF), (0x370, 0x37D), (0x37F, 0x1FFF), (0x200C, 0x200D),
   (0x2070, 0x218F), (0x2C00, 0x2FEF), (0x3001, 0xD7FF), (0xF900, 0xFDCF), (0xFDF0, 0xFFFD),
   (0x10000, 0xEFFFF)]

/-- `PN_CHARS_BASE`: the letters of names. -/
def isNameLetter (char : Char) : Bool := char.isAlpha || inRanges letterRanges char

/-- `PN_CHARS_U`: a letter or an underscore. -/
def isNameStart (char : Char) : Bool := char == '_' || isNameLetter char

def isCombining (char : Char) : Bool :=
  inRanges [(0xB7, 0xB7), (0x300, 0x36F), (0x203F, 0x2040)] char

/-- `PN_CHARS`: the characters that continue a name. -/
def isNameChar (char : Char) : Bool :=
  char == '-' || char.isDigit || isNameStart char || isCombining char

/-- The characters after the first of a `VARNAME`. -/
def isVariableChar (char : Char) : Bool :=
  char.isDigit || isNameStart char || isCombining char

def isLocalEscape (char : Char) : Bool :=
  ['_', '~', '.', '-', '!', '$', '&', '\x27', '(', ')', '*', '+', ',', ';', '=', '/', '?', '#', '@',
   '%'].contains char

def hexValue? (char : Char) : Option Nat :=
  if char.isDigit then some (char.toNat - '0'.toNat)
  else if 'a' ≤ char ∧ char ≤ 'f' then some (char.toNat - 'a'.toNat + 10)
  else if 'A' ≤ char ∧ char ≤ 'F' then some (char.toNat - 'A'.toNat + 10)
  else none

def isHexDigit (char : Char) : Bool := (hexValue? char).isSome

def hexNumber? (digits : List Char) : Option Nat :=
  digits.foldlM (fun number digit => (hexValue? digit).map (number * 16 + ·)) 0

def decimalValue (digits : List Char) : Nat :=
  digits.foldl (fun number digit => number * 10 + (digit.toNat - '0'.toNat)) 0

/-- The character with the given number; surrogates and larger numbers have none. -/
def scalar? (number : Nat) : Option Char :=
  if number.isValidChar then some (Char.ofNat number) else none

def signedHexNumber? : List Char → Option Nat
  | '+' :: digits => if digits.isEmpty then none else hexNumber? digits
  | digits => hexNumber? digits

def codePoint? (signed : Bool) (count : Nat) (chars : List Char) : Option Char :=
  let written := chars.take count
  if written.length = count then
    (if signed then signedHexNumber? written else hexNumber? written).bind scalar?
  else none

def hexDigits (width number : Nat) : List Char :=
  let digits := (Nat.toDigits 16 number).map Char.toUpper
  List.replicate (width - digits.length) '0' ++ digits

end PlanGraph.Text
