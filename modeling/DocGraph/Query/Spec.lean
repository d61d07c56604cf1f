import DocGraph.Query.Condition
import DocGraph.Query.FieldPath
import DocGraph.Schema.Resolve

/-!
# Query specifications

What a query asks of the documents of a model: fields and aggregates under
names that become the keys of the results, a filter, an order, and a range.
-/

namespace DocGraph

/-- What a field holds. -/
inductive Selector where
  /-- The value at a path. -/
  | scalar (path : FieldPath)
  /-- All values at a path. -/
  | array (path : FieldPath)
  /-- The entities at a path, as objects. The paths of the members start from
  the entity. -/
  | objects (property : FieldPath) (members : Dict Path)

/-- A function that reduces the values of a group. -/
inductive Aggregator where
  | count
  | avg
  | sum
  | min
  | max
  /-- All values, or all entities as objects. -/
  | array
  /-- One entity, as an object. -/
  | object
  deriving DecidableEq

namespace Aggregator

/-- All aggregators. -/
def list : List Aggregator :=
  [count, avg, sum, min, max, array, object]

/-- The name of an aggregator. -/
def name : Aggregator → String
  | count => "count"
  | avg => "avg"
  | sum => "sum"
  | min => "min"
  | max => "max"
  | array => "array"
  | object => "object"

/-- The aggregator with a name, or an error. -/
def ofName (name : String) : Outcome Aggregator :=
  match list.find? (·.name = name) with
  | some a => .ok a
  | none => .error (.unknownAggregator name)

/-- Whether the result comes packed in one text. -/
def isPacked : Aggregator → Bool
  | array | object => true
  | _ => false

@[simp] theorem ofName_name (a : Aggregator) : ofName a.name = .ok a := by
  cases a <;> rfl

end Aggregator

/-- An aggregated field. -/
structure Aggregation where
  aggregator : Aggregator
  /-- The path that is reduced; none when documents are counted. -/
  property : Option Path
  /-- The members of the objects that are collected. -/
  members : Dict Path
  distinct : Bool

/-- The direction of an order. -/
inductive Direction where
  | ascending
  | descending
  deriving DecidableEq

/-- A field or an aggregate that the results are ordered by. -/
structure SortDirective where
  target : String
  direction : Direction
  deriving DecidableEq

/-- The directive that a text stands for: a name, descending with a hyphen in
front. -/
def SortDirective.ofText (s : String) : SortDirective :=
  match s.toList with
  | '-' :: rest => ⟨String.ofList rest, .descending⟩
  | _ => ⟨s, .ascending⟩

/-- A query of the documents of one model. -/
structure Spec where
  fields : Dict Selector := []
  filter : Option Condition := none
  aggregates : Dict Aggregation := []
  sort : List SortDirective := []
  limit : Option Nat := none
  offset : Option Nat := none
  distinct : Bool := false

/-- Whether a segment may be part of the name of a field: a letter followed by
letters, digits and underscores, all of them ASCII, or a reserved key. -/
def isFieldSegment (s : String) : Bool :=
  s = idKey || s = typeKey ||
    match s.toList with
    | [] => false
    | c :: cs =>
      Rdf.Iri.isLetter c && cs.all fun c => Rdf.Iri.isLetter c || Number.isDigit c || c == '_'

/-- Whether a text is a dotted name of a field. -/
def isFieldName (s : String) : Bool :=
  (Text.split '.' s).all isFieldSegment

namespace Spec

/-- The names of the fields and then of the aggregates. -/
def names (q : Spec) : List String :=
  Dict.keys q.fields ++ Dict.keys q.aggregates

/-- Checks that every name is a dotted name of a field and that none is that of
a field and of an aggregate. -/
def validateNames (q : Spec) : Outcome Unit :=
  match q.names.find? (!isFieldName ·) with
  | some name => .error (.invalidQuery (.invalidName name))
  | none =>
    match (Dict.keys q.fields).find? (Dict.contains · q.aggregates) with
    | some name => .error (.invalidQuery (.fieldAndAggregate name))
    | none => .ok ()

/-- The direction that a name is ordered in, if it is. -/
def direction? (q : Spec) (name : String) : Option Direction :=
  (q.sort.find? (·.target = name)).map (·.direction)

/-- The query with one more condition, which has to hold as well. -/
def addFilter (q : Spec) (c : Condition) : Spec :=
  { q with
    filter := some
      (match q.filter with
      | none => c
      | some (.and conditions) => .and (conditions ++ [c])
      | some other => .and [other, c]) }

/-- A selector that fits its path: one value of a path over an array property is
all of them. -/
def normalizedSelector (s : Schema) (model : String) : Selector → Outcome Selector
  | .scalar p => do
    let resolved ← s.resolve model p.path
    let many := resolved.steps.any fun step => (step.property?.map (·.isArray)).getD false
    return if many then .array p else .scalar p
  | other => .ok other

/-- The fields with selectors that fit their paths. -/
def normalizedFields (s : Schema) (model : String) (fields : Dict Selector) :
    Outcome (Dict Selector) :=
  fields.mapM fun (name, selector) => do
    return (name, ← normalizedSelector s model selector)

/-- The query that is compiled: its selectors fit their paths, and one without
fields and aggregates has the identifier as its field. -/
def normalized (q : Spec) (s : Schema) (model : String) : Outcome Spec := do
  let fields :=
    if q.fields.isEmpty && q.aggregates.isEmpty then
      [(idKey, Selector.scalar (.ofText idKey))]
    else q.fields
  return { q with fields := ← normalizedFields s model fields }

end Spec

end DocGraph
