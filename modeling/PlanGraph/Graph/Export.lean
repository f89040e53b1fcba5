import PlanGraph.Graph.Description
import PlanGraph.Rdf.Format
import PlanGraph.Rdf.IriFault
import PlanGraph.Rdf.JsonLd
import PlanGraph.Rdf.TriG

/-! Exporting the description of a graph in a text format. -/

set_option autoImplicit false
namespace PlanGraph
open Rdf (Format)

inductive ExportError
  | datasetFormatExpected (format : Format)
  | invalidPrefix (fault : Rdf.IriFault)
deriving DecidableEq, Repr

def ExportError.message : ExportError → String
  | .datasetFormatExpected format =>
    "A RDF format supporting datasets was expected, " ++ format.name ++ " found"
  | .invalidPrefix fault => fault.message

/-- The prefixes that a document declares: that of the vocabulary, then those of the plan. Of two
prefixes with one namespace the later replaces the earlier. -/
def Graph.bindings (graph : Graph) : Rdf.TriG.Bindings :=
  .ofList <| (Vocabulary.namespaceIri, Vocabulary.namespacePrefix)
    :: graph.prefixes.entries.map fun (name, namespaceIri) => (namespaceIri, name)

/-- A format that declares prefixes needs absolute IRIs for all of them. The first prefix that is bound
to another text decides on the error. -/
def Graph.checkPrefixes (graph : Graph) : Except ExportError Unit :=
  match graph.prefixes.values.findSome? fun namespaceIri => Rdf.iriFault? namespaceIri.toList with
  | some fault => .error (.invalidPrefix fault)
  | none => .ok ()

def Graph.export (graph : Graph) : Format → Except ExportError String
  | .nQuads => .ok (Rdf.nQuadsText graph.quads)
  | .triG => do
    graph.checkPrefixes
    return Rdf.TriG.text graph.bindings graph.quads
  | .jsonLd => .ok (Rdf.JsonLd.text graph.quads)
  | format => .error (.datasetFormatExpected format)

end PlanGraph
