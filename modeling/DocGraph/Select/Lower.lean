import DocGraph.Column.Name
import DocGraph.Select.Algebra

/-!
# Selections as patterns

`groupPattern` makes one pattern of the elements of a group: neighbouring
triples become one list of triples, and the filters of the group go around all
the rest. `Selection.pattern` makes the pattern of a whole query.

A grouped query matches its documents once for the keys of the groups and once
more for every column that is a value of a group. Each of these columns is
reduced in a query of its own over the distinct documents of the groups, and
joined on the keys, so that two columns with many values never multiply each
other.
-/

namespace DocGraph

open Rdf (Iri Literal Variable)
open Sparql (Aggregate Expr Pattern Reduction Triple)

/-- A group that is being read: its pattern so far, the triples that come next,
and its filters. -/
structure GroupState where
  pattern : Pattern := .empty
  triples : List Triple := []
  filters : List Expr := []

namespace GroupState

/-- The group with its next triples in the pattern. -/
def flush (g : GroupState) : GroupState :=
  { g with pattern := g.pattern.joined (.bgp g.triples), triples := [] }

/-- The pattern of the group. -/
def finish (g : GroupState) : Pattern :=
  let pattern := g.flush.pattern
  match Expr.conjunction? g.filters with
  | none => pattern
  | some e => .filter e pattern

end GroupState

/-- The union of several patterns. Without any it has no solutions. -/
def unionOf : List Pattern → Pattern
  | [] => .filter (.literal (.ofBool false)) .empty
  | p :: rest => rest.foldl .union p

mutual

/-- The group with one more element. -/
def Element.addTo (g : GroupState) : Element → GroupState
  | .triple t => { g with triples := g.triples ++ [t] }
  | .inverse s p o => { g.flush with pattern := g.flush.pattern.joined (.inverse s p o) }
  | .filter e => { g.flush with filters := g.filters ++ [e] }
  | .optional es =>
    { g.flush with pattern := .leftJoin g.flush.pattern (addAll {} es).finish }
  | .union branches =>
    { g.flush with pattern := g.flush.pattern.joined (unionOf (branchPatterns branches)) }
  | .bind v e => { g.flush with pattern := .extend g.flush.pattern v e }

/-- The group with more elements. -/
def addAll (g : GroupState) : List Element → GroupState
  | [] => g
  | e :: rest => addAll (e.addTo g) rest

/-- The patterns of several groups. -/
def branchPatterns : List (List Element) → List Pattern
  | [] => []
  | es :: rest => (addAll {} es).finish :: branchPatterns rest

end

/-- The pattern of the elements of a group. -/
def groupPattern (elements : List Element) : Pattern :=
  (addAll {} elements).finish

/-- What is reduced in a query of its own: the variable of the result, the
aggregate, and the elements it is a value of. -/
structure Reduced where
  result : Variable
  aggregate : Aggregate
  values : List Element

/-- The packed text of a column: its concatenated values between the opening and
the closing. -/
structure Wrapping where
  result : Variable
  raw : Variable
  packing : Packing

namespace Column

/-- What a column reduces over the documents alone. -/
def ofDocuments? : Column → Option (Variable × Aggregate)
  | aggregate v a none => some (v, a)
  | _ => none

/-- What a column reduces in a query of its own. -/
def reduced? : Column → Option Reduced
  | aggregate v a (some values) => some ⟨v, a, values⟩
  | packed _ raw encoded packing values =>
    some ⟨raw, .reduce (.groupConcat packing.separator) (.var encoded) true, values⟩
  | _ => none

/-- How a column is wrapped. -/
def wrapping? : Column → Option Wrapping
  | packed v raw _ packing _ => some ⟨v, raw, packing⟩
  | _ => none

end Column

/-- The pattern with the packed text of a column. -/
def Wrapping.around (p : Pattern) (w : Wrapping) : Pattern :=
  .extend p w.result
    (.call .concat [.string w.packing.opening, .var w.raw, .string w.packing.closing])

namespace Selection

/-- A pattern in the graph of the query. -/
def inGraph (s : Selection) (p : Pattern) : Pattern :=
  match s.graph with
  | some g => .graph g p
  | none => p

/-- The pattern that the documents match. -/
def documents (s : Selection) : Pattern :=
  s.inGraph (groupPattern s.elements)

/-- One row per group, with what is reduced over the solutions of the value
elements. A document counts once per group, and a group without values still has
its row. -/
def reduction (s : Selection) (r : Reduced) : Pattern :=
  let distinct := .distinct (.project s.documents (s.groupBy ++ [rootVariable]))
  let inner :=
    if r.values.isEmpty then distinct
    else .leftJoin distinct (s.inGraph (groupPattern r.values))
  .group inner s.groupBy [(r.result, r.aggregate)]

/-- One row per group, with what is reduced over the documents alone. Without
keys and such values there is but one group, and nothing to match for it. -/
def groups (s : Selection) : Pattern :=
  let aggregates := s.columns.filterMap Column.ofDocuments?
  if aggregates.isEmpty && s.groupBy.isEmpty then .empty
  else .group s.documents s.groupBy aggregates

/-- One row per group with all columns. -/
def grouped (s : Selection) : Pattern :=
  let joined := (s.columns.filterMap Column.reduced?).foldl
    (fun p r => p.joined (s.reduction r)) s.groups
  (s.columns.filterMap Column.wrapping?).foldl Wrapping.around joined

/-- The rows in their order. -/
def ordered (s : Selection) : Pattern :=
  let rows := if s.isGrouped then s.grouped else s.documents
  if s.orderBy.isEmpty then rows else .orderBy rows s.orderBy

/-- The pattern of the query. -/
def pattern (s : Selection) : Pattern :=
  let projected := Pattern.project s.ordered (s.columns.map Column.carrier)
  let distinct := if s.distinct then .distinct projected else projected
  if 0 < s.offset ∨ s.limit.isSome then .slice distinct s.offset s.limit else distinct

end Selection

end DocGraph
