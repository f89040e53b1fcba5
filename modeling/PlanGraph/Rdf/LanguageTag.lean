import PlanGraph.Text.Split

/-! Well-formed language tags of BCP 47, in lower case. -/

set_option autoImplicit false
namespace PlanGraph.Rdf
open Text

/-- Tags that are valid as a whole and follow no rule. -/
def irregularTags : List String :=
  ["art-lojban", "cel-gaulish", "en-gb-oed", "i-ami", "i-bnn", "i-default", "i-enochian", "i-hak",
   "i-klingon", "i-lux", "i-mingo", "i-navajo", "i-pwn", "i-tao", "i-tay", "i-tsu", "no-bok",
   "no-nyn", "sgn-be-fr", "sgn-be-nl", "sgn-ch-de", "zh-guoyu", "zh-hakka", "zh-min", "zh-min-nan",
   "zh-xiang"]

def isLetters (least most : Nat) (subtag : List Char) : Bool :=
  least ≤ subtag.length && subtag.length ≤ most && subtag.all Char.isAlpha

def isAlphanumerics (least most : Nat) (subtag : List Char) : Bool :=
  least ≤ subtag.length && subtag.length ≤ most && subtag.all Char.isAlphanum

def isExtendedLanguage (subtag : List Char) : Bool := isLetters 3 3 subtag

def isScript (subtag : List Char) : Bool := isLetters 4 4 subtag

def isRegion (subtag : List Char) : Bool :=
  isLetters 2 2 subtag || (subtag.length == 3 && subtag.all Char.isDigit)

def isVariant (subtag : List Char) : Bool :=
  isAlphanumerics 5 8 subtag || (isAlphanumerics 4 4 subtag && subtag.head?.any Char.isDigit)

def dropUpTo (most : Nat) (kind : List Char → Bool) (subtags : List (List Char)) :
    List (List Char) :=
  subtags.drop (min most (subtags.takeWhile kind).length)

def arePrivate (subtags : List (List Char)) : Bool :=
  !subtags.isEmpty && subtags.all (isAlphanumerics 1 8)

/-- Extensions, each a single letter or digit with at least one longer subtag. The letter `x` leads
to subtags of private use. The flag tells that the current extension still lacks its subtag. -/
def areExtensions (lacking : Bool) : List (List Char) → Bool
  | [] => !lacking
  | subtag :: rest =>
    if subtag = ['x'] then !lacking && arePrivate rest
    else if isAlphanumerics 1 1 subtag then !lacking && areExtensions true rest
    else isAlphanumerics 2 8 subtag && areExtensions false rest

def startsExtension : List (List Char) → Bool
  | [] => true
  | subtag :: _ => subtag.length == 1

def followLanguage (language : List Char) (subtags : List (List Char)) : Bool :=
  let afterExtended := dropUpTo (if language.length < 4 then 3 else 0) isExtendedLanguage subtags
  let afterScript := dropUpTo 1 isScript afterExtended
  let afterRegion := dropUpTo 1 isRegion afterScript
  let extensions := afterRegion.dropWhile isVariant
  startsExtension extensions && areExtensions false extensions

def isLanguageTag (chars : List Char) : Bool :=
  irregularTags.contains (String.ofList chars) ||
    match splitOn '-' chars with
    | [] => false
    | first :: rest =>
      if first = ['x'] then arePrivate rest else isLetters 2 8 first && followLanguage first rest

end PlanGraph.Rdf
