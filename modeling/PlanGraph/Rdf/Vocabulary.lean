import PlanGraph.Rdf.Term

/-! The names of RDF, RDF Schema, XML Schema and OWL that have a meaning here. -/

set_option autoImplicit false
namespace PlanGraph

namespace Rdf.Vocabulary

def rdfNamespace : String := "http://www.w3.org/1999/02/22-rdf-syntax-ns#"
def rdfsNamespace : String := "http://www.w3.org/2000/01/rdf-schema#"

def rdfType : Iri := rdfNamespace ++ "type"
def rdfFirst : Iri := rdfNamespace ++ "first"
def rdfRest : Iri := rdfNamespace ++ "rest"
def rdfNil : Iri := rdfNamespace ++ "nil"
def rdfsClass : Iri := rdfsNamespace ++ "Class"
def rdfsLabel : Iri := rdfsNamespace ++ "label"
def rdfsSubClassOf : Iri := rdfsNamespace ++ "subClassOf"
def owlClass : Iri := "http://www.w3.org/2002/07/owl#Class"
def xsdBoolean : Iri := xsdNamespace ++ "boolean"
def xsdInteger : Iri := xsdNamespace ++ "integer"
def xsdDecimal : Iri := xsdNamespace ++ "decimal"
def xsdDouble : Iri := xsdNamespace ++ "double"

end Rdf.Vocabulary
end PlanGraph
