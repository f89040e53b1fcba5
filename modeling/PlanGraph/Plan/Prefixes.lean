import PlanGraph.OrderedMap
import PlanGraph.Rdf.Iri
import PlanGraph.Text.Split

/-! Prefixes and their namespaces: compact names are expanded to IRIs, and IRIs are written as
compact names. -/

set_option autoImplicit false
namespace PlanGraph
open Text

abbrev Prefixes := OrderedMap String String

/-- The namespace bound to what precedes the colon, followed by what comes after it. -/
def Prefixes.expandCompact? (prefixes : Prefixes) (name : List Char) : Option Iri :=
  (cutAt? ':' name).bind fun halves =>
    (prefixes.find? (String.ofList halves.1)).map (· ++ String.ofList halves.2)

/-- The IRI of a name: what stands in angle brackets, else an expanded compact name, else the name
as it stands. -/
def Prefixes.expand (prefixes : Prefixes) (name : String) : Iri :=
  match between? '<' '>' name.toList with
  | some iri => String.ofList iri
  | none => (prefixes.expandCompact? name.toList).getD name

structure CompactName where
  namePrefix : String
  localName : List Char
deriving DecidableEq, Repr

def CompactName.text (name : CompactName) : String :=
  name.namePrefix ++ ":" ++ String.ofList name.localName

def compactName? (iri : List Char) (binding : String × String) : Option CompactName :=
  if binding.2.isEmpty then none
  else (after? binding.2.toList iri).map fun rest => ⟨binding.1, rest⟩

def betterName (best : Option CompactName) (name : CompactName) : Option CompactName :=
  match best with
  | none => some name
  | some earlier =>
    if name.localName.length ≤ earlier.localName.length then some name else some earlier

/-- The compact name of an IRI under its longest namespace, and of equal namespaces under the
greatest prefix. -/
def Prefixes.compact? (prefixes : Prefixes) (iri : Iri) : Option String :=
  ((prefixes.entries.filterMap (compactName? iri.toList)).foldl betterName none).map
    CompactName.text

end PlanGraph
