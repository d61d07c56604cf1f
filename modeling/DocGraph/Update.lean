import DocGraph.Codec.Value
import DocGraph.Sparql.Update

/-!
# Storing documents

A document is stored as one statement for its class and one for each value of
its properties. Inverse relations are stored on the other side. Saving adds
these statements, deleting takes away all statements about the document, and
replacing does both at once.
-/

namespace DocGraph

open Json (Value)
open Rdf (Iri Term rdfType)
open Sparql (Node Pattern Predicate Quad Triple Update)

/-- Where documents are stored: a schema, and a graph if it is a named one. -/
structure Target where
  schema : Schema
  graph : Option Iri

namespace Document

/-- The values of a property: the items of an array and no `null`. Only an array
property may have an array. -/
def valuesOf (key : String) (p : Property) : Value → Outcome (List Value)
  | .arr items =>
    if p.isArray then .ok (items.filter (!·.isNull))
    else .error (.invalidValue key .notAnArray)
  | v => .ok (if v.isNull then [] else [v])

/-- The predicate and the objects of the statements of one key. -/
def statementsOf (s : Schema) (model key : String) (v : Value) : Outcome (List (Iri × Term)) := do
  if key = idKey ∨ key = typeKey then return []
  else
    let p ← s.property model key
    if p.isInverse then return []
    else
      let values ← valuesOf key p v
      values.mapM fun v => do return (p.predicate, ← s.encode model (.ofText key) v)

/-- The predicates and objects of the statements about a document, its class
first. -/
def statements (s : Schema) (model : String) (d : Document) : Outcome (List (Iri × Term)) := do
  let classUri ← s.classUri model
  let values ← d.mapM fun (key, v) => statementsOf s model key v
  return (rdfType, .iri classUri) :: values.flatten

end Document

namespace Target

/-- A quad of the target graph. -/
def quad (t : Target) (subject : Iri) (predicate : Predicate) (object : Node) : Quad :=
  ⟨⟨.term (.iri subject), predicate, object⟩, t.graph⟩

/-- The quads of the statements about a document. -/
def statementQuads (t : Target) (identity : Identity) (subject : Iri) (d : Document) :
    Outcome (List Quad) := do
  let statements ← d.statements t.schema identity.model
  return statements.map fun (predicate, object) => t.quad subject (.iri predicate) (.term object)

/-- The triple of every statement about a subject. -/
def anyStatement (subject : Iri) : Triple :=
  ⟨.term (.iri subject), .var ⟨"p"⟩, .var ⟨"o"⟩⟩

/-- The pattern of all statements about a subject. -/
def allStatements (subject : Iri) : Pattern :=
  .bgp [anyStatement subject]

/-- A pattern in the target graph. -/
def inGraph (t : Target) (p : Pattern) : Pattern :=
  match t.graph with
  | some g => .graph g p
  | none => p

/-- Adds the statements about a document. -/
def save (t : Target) (d : Document) : Outcome Update := do
  let identity ← d.identity
  let subject ← t.schema.instanceUri identity.model identity.id
  return .insertData (← t.statementQuads identity subject d)

/-- Takes away all statements about a document and adds those it has now. The
old statements are optional, so that a new document is added too. -/
def replace (t : Target) (d : Document) : Outcome Update := do
  let identity ← d.identity
  let subject ← t.schema.instanceUri identity.model identity.id
  let inserted ← t.statementQuads identity subject d
  return .modify [⟨anyStatement subject, t.graph⟩] inserted
    (t.inGraph (.leftJoin .empty (allStatements subject)))

/-- Takes away all statements about a document. -/
def delete (t : Target) (d : Document) : Outcome Update := do
  let identity ← d.identity
  let subject ← t.schema.instanceUri identity.model identity.id
  return .modify [⟨anyStatement subject, t.graph⟩] [] (t.inGraph (allStatements subject))

end Target

end DocGraph
