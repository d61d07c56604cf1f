import DocGraph.Compile.Filter
import DocGraph.Compile.Projection

/-!
# Compiling queries

A query becomes a selection over the documents of its model. Nothing is compiled
if a name, a path, an operand or a sort target is wrong.
-/

namespace DocGraph

open Rdf (Iri rdfType)
open Sparql (SortKey)

/-- What holds for every query that is compiled. -/
structure CompileOptions where
  /-- The graph that the documents are in, if it is a named one. -/
  graph : Option Iri := none
  fullText : FullText := .standard

namespace Spec

/-- Whether a name is that of a field or an aggregate. -/
def hasName (q : Spec) (name : String) : Bool :=
  Dict.contains name q.fields || Dict.contains name q.aggregates

/-- Checks that every sort target is a field or an aggregate. -/
def checkSort (q : Spec) : Outcome Unit :=
  match q.sort.find? (!q.hasName ·.target) with
  | some d => .error (.unknownSortTarget d.target)
  | none => .ok ()

/-- The column that a directive orders by. -/
def sortKey (d : SortDirective) : Outcome SortKey := do
  return ⟨← outputVariable d.target, d.direction = .descending⟩

/-- The elements of the filter. -/
def filterElements (q : Spec) (f : FilterScope) : Outcome (List Element) :=
  match q.filter with
  | none => .ok []
  | some c => do return (← f.compile false 0 c.eliminateNot).1

/-- The selection of a query of the documents of a model. -/
def compile (q : Spec) (s : Schema) (options : CompileOptions) (model : String) :
    Outcome Selection := do
  q.validateNames
  let q ← q.normalized s model
  let classUri ← s.classUri model
  q.checkSort
  let projection ← Projection.compile s model q
  let filters ← q.filterElements ⟨s, model, projection.projected, options.fullText⟩
  let orderBy ← q.sort.mapM sortKey
  let grouped := projection.columns.any Column.isAggregated
  return {
    columns := projection.columns
    required := .statement rootNode rdfType (.term (.iri classUri)) :: projection.required
    filters := filters
    optionals := projection.optionals
    bindings := projection.bindings
    groupBy := if grouped then projection.columns.filterMap Column.key? else []
    orderBy := orderBy
    limit := q.limit
    offset := q.offset.getD 0
    distinct := q.distinct
    graph := options.graph }

end Spec

end DocGraph
