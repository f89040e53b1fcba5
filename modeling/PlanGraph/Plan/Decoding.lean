import PlanGraph.Plan.Basic
import PlanGraph.Plan.Document
import PlanGraph.Plan.PatternText

/-! Decoding evaluation plans: first the whole document is read, then its terms in order. -/

set_option autoImplicit false
namespace PlanGraph
open Text

inductive PlanError
  | invalidDocument
  | invalidTerm (error : TermError)
  | invalidSeed (seed : String)
deriving DecidableEq, Repr

def PlanError.message : PlanError → String
  | .invalidDocument => "The document is not a plan"
  | .invalidTerm error => error.message
  | .invalidSeed seed => "The seed " ++ seed ++ " is not a valid IRI"

namespace Document

def Step.decode (prefixes : Prefixes) (step : Step) : PathStep :=
  ⟨prefixes.expand step.property, prefixes.expand step.type⟩

def Cycle.decode (prefixes : Prefixes) (cycle : Cycle) : PlannedCycle :=
  ⟨cycle.id, cycle.steps.map (·.decode prefixes)⟩

/-- A seed is an absolute IRI, in angle brackets or without them. -/
def decodeSeed (seed : String) : Except PlanError Iri :=
  let iri := (between? '<' '>' seed.toList).getD seed.toList
  if Rdf.isAbsoluteIri iri then .ok (String.ofList iri) else .error (.invalidSeed seed)

def Path.decode (prefixes : Prefixes) (path : Path) : Except PlanError PlannedPath := do
  let seeds ← path.seeds.mapM decodeSeed
  return ⟨path.steps.map (·.decode prefixes), seeds, path.check⟩

def Entry.decode (prefixes : Prefixes) (entry : Entry) : Except PlanError PlanEntry := do
  let pattern ← (TriplePattern.ofTexts prefixes entry.subject entry.predicate entry.object).mapError
    .invalidTerm
  let paths ← entry.paths.mapM (·.decode prefixes)
  return ⟨entry.context, pattern, entry.check, entry.cycles.map (·.decode prefixes), paths⟩

def decode (document : Document) : Except PlanError Plan := do
  let prefixes : Prefixes := .ofList document.prefixes
  let entries ← document.entries.mapM (·.decode prefixes)
  return ⟨prefixes, entries⟩

end Document

def Plan.ofGlyphs (glyphs : List Glyph) : Except PlanError Plan :=
  match (Json.Value.ofGlyphs? glyphs).bind Document.ofValue? with
  | some document => document.decode
  | none => .error .invalidDocument

def Plan.ofText (text : String) : Except PlanError Plan := Plan.ofGlyphs (glyphsOfText text)

def Plan.ofBytes (bytes : ByteArray) : Except PlanError Plan := Plan.ofGlyphs (glyphsOfBytes bytes)

end PlanGraph
