import DocGraph.Compile.Hop
import DocGraph.Query.Spec

/-!
# Compiling columns

Every scalar field is a path whose prefixes are hops of the document pattern.
The prefixes that a required field needs are matched once, in the required
elements. The others go into one optional block for each group of optional
paths, so that a missing value never loses a document. Arrays and aggregates
have value elements with the whole chain from the document.
-/

namespace DocGraph

open Rdf (Variable)
open Sparql (Aggregate Expr Node Reduction)

/-- The elements of a list without those whose key an earlier one has. -/
def firstByKey [DecidableEq β] (key : α → β) : List α → List α
  | [] => []
  | a :: rest => a :: (firstByKey key rest).filter (key · ≠ key a)

/-- The path of a scalar field. -/
structure FieldTarget where
  field : FieldPath
  resolved : ResolvedPath

namespace FieldTarget

/-- The path itself. -/
def path (t : FieldTarget) : Path :=
  t.field.path

/-- The number of segments in front of the first optional one. -/
def requiredLength (t : FieldTarget) : Nat :=
  t.field.optionalFrom.getD t.path.length

/-- The prefixes that are not optional. -/
def requiredPrefixes (t : FieldTarget) : List Path :=
  (List.range' 1 t.requiredLength).map t.path.take

end FieldTarget

/-- A prefix of a resolved path. -/
structure PathPrefix where
  path : Path
  resolved : ResolvedPath
  length : Nat

namespace PathPrefix

/-- The prefix as a path. -/
def key (p : PathPrefix) : Path :=
  p.path.take p.length

/-- The prefixes of a path whose length is more than `start`. -/
def ofPath (path : Path) (resolved : ResolvedPath) (start : Nat) : List PathPrefix :=
  (List.range' (start + 1) (path.length - start)).map fun n => ⟨path, resolved, n⟩

/-- Whether the prefix is the type of the document itself, which is known. -/
def isRootType (p : PathPrefix) : Bool :=
  p.length == 1 && p.resolved.steps.head?.any (·.target = .type)

/-- The node that the first `n` segments of a path lead to. -/
def nodeAt (path : Path) (resolved : ResolvedPath) : Nat → Outcome Node
  | 0 => .ok rootNode
  | n + 1 =>
    match resolved.steps[n]? with
    | none => .ok rootNode
    | some step =>
      if step.target = .identity then nodeAt path resolved n
      else if n = 0 ∧ step.target = .type then .ok (.term (.iri resolved.root.classUri))
      else (variableAt .node (path.segments.take (n + 1))).map .var

/-- The hop that ends the prefix. -/
def hop (s : Schema) (p : PathPrefix) : Outcome (List Element) :=
  if p.isRootType then .ok []
  else
    match p.length with
    | 0 => .ok []
    | n + 1 =>
      match p.resolved.steps[n]? with
      | none => .ok []
      | some step => do
        let subject ← nodeAt p.path p.resolved n
        let object ← nodeAt p.path p.resolved (n + 1)
        DocGraph.hop s subject step object

/-- The hops that end a list of prefixes. -/
def hops (s : Schema) (ps : List PathPrefix) : Outcome (List Element) := do
  return (← ps.mapM (hop s)).flatten

end PathPrefix

/-- What the columns of a query are compiled to. -/
structure Projection where
  required : List Element
  optionals : List Element
  bindings : List Element
  columns : List Column
  /-- The paths whose values are columns. -/
  projected : List Path

/-- What one field or aggregate is compiled to. -/
structure CompiledColumn where
  column : Column
  binding : Option Element
  projected : Option Path

namespace Projection

/-- The paths of the scalar fields. -/
def targets (s : Schema) (model : String) : Dict Selector → Outcome (List FieldTarget)
  | [] => .ok []
  | (_, .scalar field) :: rest => do
    let resolved ← s.resolve model field.path
    let others ← targets s model rest
    return ⟨field, resolved⟩ :: others
  | _ :: rest => targets s model rest

/-- The prefixes that some field requires. -/
def requiredPaths (ts : List FieldTarget) : List Path :=
  ts.flatMap FieldTarget.requiredPrefixes

/-- The hops of the document pattern that every document needs, once each. -/
def requiredHops (ts : List FieldTarget) : List PathPrefix :=
  let required := requiredPaths ts
  firstByKey PathPrefix.key
    (ts.flatMap fun t => (PathPrefix.ofPath t.path t.resolved 0).filter (·.key ∈ required))

/-- The hops of an optional block, once each. -/
def optionalHops (ts : List FieldTarget) (group : String) : List PathPrefix :=
  let required := requiredPaths ts
  firstByKey PathPrefix.key
    ((ts.filter (·.field.optionalGroup? = some group)).flatMap fun t =>
      (PathPrefix.ofPath t.path t.resolved 0).filter (·.key ∉ required))

/-- The groups of optional paths, in the order of their first field. -/
def optionalGroups (ts : List FieldTarget) : List String :=
  firstByKey id (ts.filterMap (·.field.optionalGroup?))

/-- The optional blocks that hold any hop. -/
def optionalElements (s : Schema) (ts : List FieldTarget) : Outcome (List Element) := do
  let blocks ← (optionalGroups ts).mapM fun group => PathPrefix.hops s (optionalHops ts group)
  return (blocks.filter (!·.isEmpty)).map .optional

/-- The value at the end of a path, which is the node its segments lead to. -/
def valueAt (s : Schema) (model : String) (path : Path) : Outcome Expr := do
  let resolved ← s.resolve model path
  return .ofNode (← PathPrefix.nodeAt path resolved path.length)

/-- The hops of a path after its first `start` segments. -/
def hopsAfter (s : Schema) (model : String) (path : Path) (start : Nat) :
    Outcome (List Element) := do
  let resolved ← s.resolve model path
  PathPrefix.hops s (PathPrefix.ofPath path resolved start)

/-- The percent-encoded text of a value. -/
def encoded (value : Expr) : Expr :=
  .call .encodeForUri [.call .str [value]]

/-- The array of the values at a path. -/
def valuesColumn (s : Schema) (model name : String) (output : Variable) (path : Path) :
    Outcome CompiledColumn := do
  let encodedVariable ← fieldVariable .encoded name
  let hops ← hopsAfter s model path 0
  let value ← valueAt s model path
  let packed ← fieldVariable .packed name
  return {
    column := .packed output packed encodedVariable .values
      (hops ++ [.bind encodedVariable (encoded value)])
    binding := none
    projected := some path }

/-- The elements of the members of objects, each in an optional block of its
own, and the fragments that an object is concatenated from. -/
def memberParts (s : Schema) (model : String) (property : Path) (index : Nat) :
    Dict Path → Outcome (List Element × List Expr)
  | [] => .ok ([], [.string Packing.objectEnd])
  | (key, member) :: rest => do
    let path := property ++ member
    let hops ← hopsAfter s model path property.length
    let value ← valueAt s model path
    let (elements, fragments) ← memberParts s model property (index + 1) rest
    return ((if hops.isEmpty then elements else .optional hops :: elements),
      .string (Packing.memberStart index key) :: .coalesce [encoded value, .string ""] :: fragments)

/-- The array of the entities at a path, as objects. -/
def objectsColumn (s : Schema) (model name : String) (output : Variable) (property : Path)
    (members : Dict Path) : Outcome CompiledColumn := do
  let hops ← hopsAfter s model property 0
  let (elements, fragments) ← memberParts s model property 0 members
  let encodedVariable ← fieldVariable .encoded name
  let packed ← fieldVariable .packed name
  return {
    column := .packed output packed encodedVariable .objects
      (hops ++ elements ++ [.bind encodedVariable (.call .concat fragments)])
    binding := none
    projected := some property }

/-- A value at a path, and the empty text in its place if it is optional and
missing. -/
def scalarColumn (s : Schema) (model : String) (output : Variable) (field : FieldPath) :
    Outcome CompiledColumn := do
  let value ← valueAt s model field.path
  let bound := if field.isOptional then .coalesce [value, .string ""] else value
  return {
    column := .plain output
    binding := some (.bind output bound)
    projected := some field.path }

/-- The column of a field. -/
def fieldColumn (s : Schema) (model name : String) (selector : Selector) :
    Outcome CompiledColumn := do
  let output ← outputVariable name
  match selector with
  | .scalar field => scalarColumn s model output field
  | .array field => valuesColumn s model name output field.path
  | .objects property members => objectsColumn s model name output property.path members

/-- The number of documents of a group. -/
def countColumn (output : Variable) : CompiledColumn where
  column := .aggregate output (.reduce .count (.var rootVariable) true) none
  binding := none
  projected := none

/-- The values at a path, reduced. -/
def reducedColumn (s : Schema) (model : String) (output : Variable) (path : Path) (r : Reduction)
    (distinct : Bool) : Outcome CompiledColumn := do
  let value ← valueAt s model path
  let hops ← hopsAfter s model path 0
  return {
    column := .aggregate output (.reduce r value distinct) (some hops)
    binding := none
    projected := some path }

/-- The column of an aggregate. Without a path it counts documents. -/
def aggregateColumn (s : Schema) (model name : String) (a : Aggregation) :
    Outcome CompiledColumn := do
  let output ← outputVariable name
  match a.property with
  | none => return countColumn output
  | some path =>
    match a.aggregator with
    | .count => reducedColumn s model output path .count a.distinct
    | .sum => reducedColumn s model output path .sum a.distinct
    | .avg => reducedColumn s model output path .avg a.distinct
    | .min => reducedColumn s model output path .min a.distinct
    | .max => reducedColumn s model output path .max a.distinct
    | .array =>
      if a.members.isEmpty then valuesColumn s model name output path
      else objectsColumn s model name output path a.members
    | .object => objectsColumn s model name output path a.members

/-- Compiles the columns of a query: its fields and then its aggregates. -/
def compile (s : Schema) (model : String) (q : Spec) : Outcome Projection := do
  let ts ← targets s model q.fields
  let required ← PathPrefix.hops s (requiredHops ts)
  let optionals ← optionalElements s ts
  let fields ← q.fields.mapM fun (name, selector) => fieldColumn s model name selector
  let aggregates ← q.aggregates.mapM fun (name, a) => aggregateColumn s model name a
  let all := fields ++ aggregates
  return {
    required := required
    optionals := optionals
    bindings := all.filterMap (·.binding)
    columns := all.map (·.column)
    projected := all.filterMap (·.projected) }

end Projection

end DocGraph
