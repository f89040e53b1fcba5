import PlanGraph.Rdf.Vocabulary

/-! The vocabulary in which plan graphs are described. -/

set_option autoImplicit false
namespace PlanGraph.Vocabulary

def namespacePrefix : String := "agora"
def namespaceIri : String := "http://agora.org#"

def name (localName : String) : Iri := namespaceIri ++ localName

def trees : Iri := name "trees"

def searchSpace : Iri := name "SearchSpace"
def triplePattern : Iri := name "TriplePattern"
def searchTree : Iri := name "SearchTree"
def cycle : Iri := name "Cycle"
def queryVariable : Iri := name "Variable"
def literal : Iri := name "Literal"
def definedBy : Iri := name "definedBy"
def subject : Iri := name "subject"
def predicate : Iri := name "predicate"
def object : Iri := name "object"
def value : Iri := name "value"
def onProperty : Iri := name "onProperty"
def expectedType : Iri := name "expectedType"
def next : Iri := name "next"
def byPattern : Iri := name "byPattern"
def hasSeed : Iri := name "hasSeed"
def fromType : Iri := name "fromType"
def length : Iri := name "length"
def checkType : Iri := name "checkType"
def goesThroughCycle : Iri := name "goesThroughCycle"
def isCycleStartOf : Iri := name "isCycleStartOf"

end PlanGraph.Vocabulary
