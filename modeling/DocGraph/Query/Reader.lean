import DocGraph.Json.Printer
import DocGraph.Query.Spec

/-!
# Reading queries

A query is an object with the keys `field`, `aggregate`, `filter`, `sort`,
`limit`, `offset` and `distinct`, which are read in the order of the keys. The
entries of a filter must all hold; a list is a choice of values, and anything
but an object with operators is a value to be equal to.
-/

namespace DocGraph.Spec

open Json (Value)

/-- The key of the path of a field or an aggregate. -/
def propertyKey : String := "$property"

/-- The key of the members of objects. -/
def membersKey : String := "$fields"

/-- The key of the name of an aggregator. -/
def aggregatorKey : String := "$aggregator"

/-- An error in the form of a query. -/
def fail (fault : QueryFault) : Outcome α :=
  .error (.invalidQuery fault)

/-- The members of an object, or an error that calls it `name`. -/
def objectNamed (name : String) : Value → Outcome (Dict Value)
  | .obj members => .ok members
  | _ => fail (.objectExpected name)

/-- Reads the paths of the members of objects. -/
def readMembers (name : String) (v : Value) : Outcome (Dict Path) := do
  (← objectNamed name v).mapM fun (member, path) =>
    match path with
    | .str s => .ok (member, Path.ofText s)
    | _ => fail (.memberNotPath member name)

/-- Reads what a field holds: a path, a list of one path, or an object with a
path and members. -/
def readSelector (name : String) : Value → Outcome Selector
  | .str path => .ok (.scalar (.ofText path))
  | .arr [.str path] => .ok (.array (.ofText path))
  | .arr _ => fail (.arrayField name)
  | .obj members =>
    match (Dict.get? propertyKey members).bind Value.str? with
    | none => fail (.fieldWithoutProperty name)
    | some property =>
      match Dict.get? membersKey members with
      | none => .ok (.array (.ofText property))
      | some fields => do return .objects (.ofText property) (← readMembers name fields)
  | _ => fail (.invalidSelector name)

/-- Reads the fields. -/
def readFields (v : Value) : Outcome (Dict Selector) := do
  (← objectNamed "field" v).mapM fun (name, selector) => do
    return (name, ← readSelector name selector)

/-- Whether a text begins with a dollar sign. -/
def isDollarKey (s : String) : Bool :=
  s.toList.head? == some '$'

/-- The first member whose key names an aggregator. -/
def shorthand? (members : Dict Value) : Option (String × Value) :=
  members.find? fun (key, _) => isDollarKey key && key != membersKey && key != propertyKey

/-- Reads an aggregator and its path: under two keys, or with the name of the
aggregator as the key of the path. -/
def readAggregator (name : String) (members : Dict Value) :
    Outcome (Aggregator × Option String) :=
  match Dict.get? aggregatorKey members with
  | some (.str aggregator) => do
    return (← Aggregator.ofName aggregator, (Dict.get? propertyKey members).bind Value.str?)
  | some _ => fail (.aggregatorNotText name)
  | none =>
    match shorthand? members with
    | some (key, target) => do
      return (← Aggregator.ofName (String.ofList (key.toList.drop 1)), target.str?)
    | none => fail (.noAggregator name)

/-- Reads an aggregated field. All but a count need a path, and an object needs
members. -/
def readAggregation (name : String) (v : Value) : Outcome Aggregation := do
  let object ← objectNamed name v
  let distinct := ((Dict.get? "distinct" object).bind Value.bool?).getD false
  let (aggregator, property) ← readAggregator name object
  let members ←
    match Dict.get? membersKey object with
    | some fields => readMembers name fields
    | none => .ok []
  if aggregator ≠ .count ∧ property = none then fail (.aggregateWithoutProperty name)
  else if aggregator = .object ∧ members.isEmpty then fail (.aggregateWithoutFields name)
  else return ⟨aggregator, property.map Path.ofText, members, distinct⟩

/-- Reads the aggregates. -/
def readAggregates (v : Value) : Outcome (Dict Aggregation) := do
  (← objectNamed "aggregate" v).mapM fun (name, aggregation) => do
    return (name, ← readAggregation name aggregation)

/-- Reads the comparisons of one path. -/
def readComparisons (path : String) (v : Value) : Outcome (List Condition) :=
  match v with
  | .obj members =>
    if members.any fun (key, _) => isDollarKey key then
      members.mapM fun (key, operand) => do
        return .comparison (.ofText path) (← Operator.ofKey key) operand
    else .ok [.equals (.ofText path) v]
  | .arr _ => .ok [.comparison (.ofText path) .oneOf v]
  | _ => .ok [.equals (.ofText path) v]

/-- The condition that all of a list hold; none where there are none. -/
def conjunction? : List Condition → Option Condition
  | [] => none
  | [c] => some c
  | cs => some (.and cs)

mutual

/-- Reads a filter; none where it has no entries. -/
def readFilter : Value → Outcome (Option Condition)
  | .obj members => do return conjunction? (← readEntries members)
  | _ => fail (.objectExpected "filter")

/-- Reads the entries of a filter. -/
def readEntries : List (String × Value) → Outcome (List Condition)
  | [] => .ok []
  | (key, v) :: rest => do
    let here ←
      if key = "$and" then (readChildren key v).map fun cs => [.and cs]
      else if key = "$or" then (readChildren key v).map fun cs => [.or cs]
      else if key = "$not" then (readFilter v).map fun c => [.not (c.getD (.and []))]
      else readComparisons key v
    let others ← readEntries rest
    return here ++ others

/-- Reads the filters that a connective joins. -/
def readChildren (key : String) : Value → Outcome (List Condition)
  | .arr items => readFilters items
  | _ => fail (.listExpected key)

/-- Reads a list of filters, leaving out those without entries. -/
def readFilters : List Value → Outcome (List Condition)
  | [] => .ok []
  | v :: rest => do
    let here ← readFilter v
    let others ← readFilters rest
    return here.toList ++ others

end

/-- Reads the order of the results: a list of names. -/
def readSort (v : Value) : Outcome (List SortDirective) :=
  match v.arr?.bind (·.mapM Value.str?) with
  | some directives => .ok (directives.map SortDirective.ofText)
  | none => .error (.invalidSortInput v.text)

/-- Reads a number of documents; none where it is `null`. -/
def readCount (key : String) : Value → Outcome (Option Nat)
  | .null => .ok none
  | .num n =>
    match n.unsigned? with
    | some count => .ok (some count)
    | none => fail (.countExpected key)
  | _ => fail (.countExpected key)

/-- The query with one more key read. -/
def readKey (q : Spec) (key : String) (v : Value) : Outcome Spec :=
  match key with
  | "field" | "fields" => do return { q with fields := ← readFields v }
  | "aggregate" | "aggregates" => do return { q with aggregates := ← readAggregates v }
  | "filter" => do return { q with filter := ← readFilter v }
  | "sort" => do return { q with sort := ← readSort v }
  | "limit" => do return { q with limit := ← readCount key v }
  | "offset" => do return { q with offset := ← readCount key v }
  | "distinct" => .ok { q with distinct := v.bool?.getD false }
  | _ => fail (.unknownKey key)

/-- Reads a query and checks its names. -/
def ofValue : Value → Outcome Spec
  | .obj members => do
    let q ← members.foldlM (fun q (key, v) => readKey q key v) {}
    q.validateNames
    return q
  | _ => fail .notAnObject

/-- Reads a query from its JSON text. -/
def ofText (s : String) : Outcome Spec :=
  match Value.read? s with
  | some v => ofValue v
  | none => .error .malformedConfig

end DocGraph.Spec
