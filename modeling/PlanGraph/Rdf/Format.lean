import PlanGraph.Text.Blank
import PlanGraph.Text.Split

/-! The text formats of RDF, and how they are named. -/

set_option autoImplicit false
namespace PlanGraph.Rdf
open Text

inductive Format
  | jsonLd
  | n3
  | nQuads
  | nTriples
  | rdfXml
  | triG
  | turtle
deriving DecidableEq, Repr

namespace Format

def name : Format → String
  | .jsonLd => "JSON-LD"
  | .n3 => "N3"
  | .nQuads => "N-Quads"
  | .nTriples => "N-Triples"
  | .rdfXml => "RDF/XML"
  | .triG => "TriG"
  | .turtle => "Turtle"

def supportsDatasets : Format → Bool
  | .jsonLd | .nQuads | .triG => true
  | _ => false

def lowerText (chars : List Char) : String := String.ofList (chars.map Char.toLower)

/-- File name extensions are read without regard to case. -/
def ofExtension? (extension : List Char) : Option Format :=
  match lowerText extension with
  | "json" | "jsonld" => some .jsonLd
  | "n3" => some .n3
  | "nq" => some .nQuads
  | "nt" | "txt" => some .nTriples
  | "rdf" | "xml" => some .rdfXml
  | "trig" => some .triG
  | "ttl" => some .turtle
  | _ => none

def ofSubtype? (subtype : List Char) : Option Format :=
  match lowerText subtype with
  | "json" | "ld+json" | "jsonld" | "activity+json" => some .jsonLd
  | "n3" => some .n3
  | "n-quads" | "nquads" => some .nQuads
  | "n-triples" | "ntriples" | "plain" => some .nTriples
  | "rdf+xml" | "xml" => some .rdfXml
  | "trig" => some .triG
  | "turtle" => some .turtle
  | _ => none

/-- A parameter is a key with a value; texts are in UTF-8 or a part of it. -/
def acceptsParameter (parameter : List Char) : Bool :=
  match cutAt? '=' parameter with
  | none => false
  | some (key, value) =>
    trim key != "charset".toList || ["ascii", "utf8", "utf-8"].contains (lowerText (trim value))

def acceptsParameters (parameters : List Char) : Bool :=
  let parameters := trim parameters
  parameters.isEmpty || (splitOn ';' parameters).all acceptsParameter

/-- The format of a media type, whose subtype may be marked as experimental by a leading `x-`. -/
def ofMediaType? (mediaType : List Char) : Option Format :=
  let (type, parameters) := (cutAt? ';' mediaType).getD (mediaType, [])
  match cutAt? '/' type with
  | none => none
  | some (main, subtype) =>
    let subtype := trim subtype
    if ["application", "text"].contains (lowerText (trim main)) ∧ acceptsParameters parameters then
      ofSubtype? ((after? ['x', '-'] subtype).getD subtype)
    else none

end Format
end PlanGraph.Rdf
