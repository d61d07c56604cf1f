import DocGraph.Column.Packing
import DocGraph.Sparql.Algebra

/-!
# Selections

What a query of documents asks of a graph, before it is one pattern: the
elements of its document pattern by their purpose, and its columns. An array or
an aggregate that goes beyond the document has value elements of its own, which
are matched from each document of a group.
-/

namespace DocGraph

open Rdf (Iri Variable)
open Sparql (Aggregate Expr Node SortKey Triple)

/-- An element of a group. -/
inductive Element where
  | triple (t : Triple)
  /-- The triples with `predicate` from `object` to `subject`. -/
  | inverse (subject : Node) (predicate : Iri) (object : Node)
  /-- A test of every solution of the group. -/
  | filter (e : Expr)
  | optional (elements : List Element)
  | union (branches : List (List Element))
  | bind (v : Variable) (e : Expr)

/-- The triple `subject predicate object`. -/
def Element.statement (subject : Node) (predicate : Iri) (object : Node) : Element :=
  .triple ⟨subject, .iri predicate, object⟩

/-- A column of the results. -/
inductive Column where
  /-- A variable of the document pattern. -/
  | plain (v : Variable)
  /-- A value of each group: of its documents or, with value elements, of the
  solutions of these. -/
  | aggregate (v : Variable) (a : Aggregate) (values : Option (List Element))
  /-- The distinct values of `encoded` in each group, concatenated in `raw`. -/
  | packed (v raw encoded : Variable) (packing : Packing) (values : List Element)

namespace Column

/-- The variable that carries the column in the results. -/
def carrier : Column → Variable
  | plain v => v
  | aggregate v _ _ => v
  | packed v _ _ _ _ => v

/-- The key that a column is to the groups, unless it is a value of them. -/
def key? : Column → Option Variable
  | plain v => some v
  | _ => none

/-- Whether the column is a value of a group. -/
def isAggregated : Column → Bool
  | plain _ => false
  | _ => true

end Column

/-- A query of the documents of one model. -/
structure Selection where
  columns : List Column
  required : List Element := []
  filters : List Element := []
  optionals : List Element := []
  bindings : List Element := []
  /-- The keys of the groups. -/
  groupBy : List Variable := []
  orderBy : List SortKey := []
  limit : Option Nat := none
  offset : Nat := 0
  distinct : Bool := false
  /-- The graph that the documents are in, if it is a named one. -/
  graph : Option Iri := none

namespace Selection

/-- Whether the documents are grouped. -/
def isGrouped (s : Selection) : Bool :=
  s.columns.any Column.isAggregated

/-- The elements of the document pattern. -/
def elements (s : Selection) : List Element :=
  s.required ++ s.filters ++ s.optionals ++ s.bindings

end Selection

end DocGraph
