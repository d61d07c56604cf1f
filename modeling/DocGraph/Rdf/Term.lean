import DocGraph.Rdf.Iri

/-!
# RDF terms

IRIs, blank nodes and literals. A literal has a language tag or a datatype; one
whose datatype is `xsd:string` is the plain literal of its text.
-/

namespace DocGraph.Rdf

/-- An IRI of the XML Schema datatypes. -/
def xsd (name : String) : Iri :=
  ⟨"http://www.w3.org/2001/XMLSchema#" ++ name⟩

/-- An IRI of the RDF vocabulary. -/
def rdf (name : String) : Iri :=
  ⟨"http://www.w3.org/1999/02/22-rdf-syntax-ns#" ++ name⟩

/-- The predicate that states the class of an entity. -/
def rdfType : Iri :=
  rdf "type"

/-- A literal. -/
inductive Literal where
  | plain (value : String)
  | tagged (value : String) (tag : String)
  /-- A literal with a datatype other than `xsd:string`. -/
  | typed (value : String) (datatype : Iri)
  deriving DecidableEq

namespace Literal

/-- The literal with this text and datatype. -/
def ofDatatype (value : String) (datatype : Iri) : Literal :=
  if datatype = xsd "string" then .plain value else .typed value datatype

/-- The lexical form. -/
def value : Literal → String
  | .plain value | .tagged value _ | .typed value _ => value

/-- The datatype. -/
def datatype : Literal → Iri
  | .plain _ => xsd "string"
  | .tagged _ _ => rdf "langString"
  | .typed _ datatype => datatype

/-- A truth value. -/
def ofBool (b : Bool) : Literal :=
  .typed (if b then "true" else "false") (xsd "boolean")

/-- An integer. -/
def ofInt (n : Int) : Literal :=
  .typed (toString n) (xsd "integer")

end Literal

/-- A term. -/
inductive Term where
  | iri (i : Iri)
  | blank (name : String)
  | literal (l : Literal)
  deriving DecidableEq

/-- The characters of a term, without quotes, brackets, tag and datatype. -/
def Term.lexical : Term → String
  | .iri i => i.text
  | .blank name => name
  | .literal l => l.value

end DocGraph.Rdf
