import DocGraph.Compile.Query
import DocGraph.Results.Decoder
import DocGraph.Results.Reader
import DocGraph.Schema.Config
import DocGraph.Sparql.Printer
import DocGraph.Update

/-!
# Mappers

A mapper holds a schema and what applies to all its queries and updates. It
compiles queries and updates to text and decodes the results of queries; it
never runs them.
-/

namespace DocGraph

open Rdf (Iri)

/-- The text of a query. -/
def Selection.text (s : Selection) : String :=
  s.pattern.query

/-- A schema and what applies to all its queries and updates. -/
structure Mapper where
  schema : Schema
  options : CompileOptions := {}

namespace Mapper

/-- The mapper that a configuration makes. -/
def ofConfig (c : Config) : Outcome Mapper := do
  let graph ←
    match c.graph with
    | some text => (absoluteIri text).map some
    | none => .ok none
  let schema ← c.definition.build
  return { schema := schema, options := { graph := graph } }

/-- The mapper for another graph. -/
def withGraph (m : Mapper) (graph : Iri) : Mapper :=
  { m with options := { m.options with graph := some graph } }

/-- The mapper with other predicates of full-text search. -/
def withFullText (m : Mapper) (fullText : FullText) : Mapper :=
  { m with options := { m.options with fullText := fullText } }

/-- The selection of a query of the documents of a model. -/
def compile (m : Mapper) (model : String) (q : Spec) : Outcome Selection :=
  q.compile m.schema m.options model

/-- The documents of the results of a query. The first row that is refused, or
else the first fault of the results, is the error. -/
def decodeResults (m : Mapper) (model : String) (q : Spec) (results : String) :
    Outcome (List Document) := do
  let decoder ← Decoder.ofSpec m.schema model q
  let content := Results.content results
  let documents ← content.rows.mapM decoder.decode
  match content.ending with
  | .complete => return documents
  | .fault => .error .malformedResults
  | .boolean => .error (.invalidQuery .booleanResults)

/-- Where the documents are stored. -/
def target (m : Mapper) : Target :=
  ⟨m.schema, m.options.graph⟩

end Mapper

end DocGraph
