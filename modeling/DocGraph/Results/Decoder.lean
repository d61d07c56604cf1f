import DocGraph.Codec.Value
import DocGraph.Column.Name
import DocGraph.Column.Packing
import DocGraph.Query.Spec

/-!
# Decoding rows

A row of results becomes a document. The query that was asked tells what each
column holds: the identifier of an entity, a scalar, a type, or an array that
comes packed. The elements of arrays are put in order here, since the store
packs them in any. Columns without a value are left out.
-/

namespace DocGraph

open Json (Value)
open Rdf (Term Variable)

/-- What a value of a column is. -/
inductive ValueKind where
  | scalar (kind : ScalarKind)
  /-- An instance of a model, whose identifier is the value. -/
  | reference (model : String)
  /-- A class, whose model is the value. -/
  | type
  /-- What the term tells alone. -/
  | any
  deriving DecidableEq

/-- What a column holds. -/
inductive ColumnKind where
  | value (kind : ValueKind)
  | values (kind : ValueKind)
  /-- Objects with these members, or only the first one. -/
  | objects (members : Dict ValueKind) (single : Bool)

/-- A column of the results. -/
structure DecodedColumn where
  /-- The dotted name of the field. -/
  field : String
  kind : ColumnKind
  direction : Direction

/-- What the rows of a query are decoded by: its columns under the names of
their variables. -/
structure Decoder where
  schema : Schema
  columns : Dict DecodedColumn

namespace ValueKind

/-- What the values at a path are. -/
def ofPath (s : Schema) (model : String) (path : Path) : Outcome ValueKind := do
  let resolved ← s.resolve model path
  match resolved.terminal? with
  | none => return .reference resolved.root.name
  | some step =>
    match step.target with
    | .identity => return .reference step.owner.name
    | .type => return .type
    | .property p =>
      match p.kind with
      | .scalar kind => return .scalar kind
      | .relation related | .inverse related _ => return .reference related

/-- What the members of objects are. -/
def ofMembers (s : Schema) (model : String) (property : Path) (members : Dict Path) :
    Outcome (Dict ValueKind) :=
  members.mapM fun (key, path) => do return (key, ← ofPath s model (property ++ path))

end ValueKind

namespace ColumnKind

/-- What the column of a field holds. -/
def ofSelector (s : Schema) (model : String) : Selector → Outcome ColumnKind
  | .scalar field => do return .value (← ValueKind.ofPath s model field.path)
  | .array field => do return .values (← ValueKind.ofPath s model field.path)
  | .objects property members => do
    return .objects (← ValueKind.ofMembers s model property.path members) false

/-- What the column of an aggregate holds. -/
def ofAggregation (s : Schema) (model : String) (a : Aggregation) : Outcome ColumnKind :=
  match a.property with
  | none => .ok (.value .any)
  | some path =>
    match a.aggregator with
    | .count | .sum | .avg => .ok (.value .any)
    | .min | .max => do return .value (← ValueKind.ofPath s model path)
    | .array =>
      if a.members.isEmpty then do return .values (← ValueKind.ofPath s model path)
      else do return .objects (← ValueKind.ofMembers s model path a.members) false
    | .object => do return .objects (← ValueKind.ofMembers s model path a.members) true

end ColumnKind

/-- Whether a value is left out of documents: `null`, and an empty text, array
or object. -/
def isBlank : Value → Bool
  | .null => true
  | .str s => s = ""
  | .arr items => items.isEmpty
  | .obj members => members.isEmpty
  | .bool _ | .num _ => false

/-- Whether a value may stand in front of another one. Numbers are compared as
numbers, texts by their characters, and all else by its JSON text. -/
def notAfter : Value → Value → Bool
  | .num m, .num n => m.toBinary64.orderKey ≤ n.toBinary64.orderKey
  | .str s, .str t => s ≤ t
  | v, w => v.text ≤ w.text

/-- A list in order. Equal values keep their order when it is ascending, and
have the opposite one when it is descending. -/
def sortValues (direction : Direction) (values : List Value) : List Value :=
  let sorted := values.mergeSort notAfter
  match direction with
  | .ascending => sorted
  | .descending => sorted.reverse

namespace Decoder

/-- The columns with one more. -/
def addColumn (q : Spec) (columns : Dict DecodedColumn) (name : String) (kind : ColumnKind) :
    Outcome (Dict DecodedColumn) := do
  let output ← outputVariable name
  return Dict.insert output.name ⟨name, kind, (q.direction? name).getD .ascending⟩ columns

/-- The decoder of the rows of a query. -/
def ofSpec (s : Schema) (model : String) (q : Spec) : Outcome Decoder := do
  let q ← q.normalized s model
  let columns ← q.fields.foldlM
    (fun columns (name, selector) => do
      addColumn q columns name (← ColumnKind.ofSelector s model selector)) []
  let columns ← q.aggregates.foldlM
    (fun columns (name, a) => do
      addColumn q columns name (← ColumnKind.ofAggregation s model a)) columns
  return ⟨s, columns⟩

/-- The identifier of an instance of a model; another URI stays as it is. -/
def reference (d : Decoder) (model uri : String) : Value :=
  .str (((d.schema.model? model).bind fun m => Schema.idOfInstance? m uri).getD uri)

/-- Whether a term is a literal without characters. -/
def isEmptyLiteral : Term → Bool
  | .literal l => l.value = ""
  | _ => false

/-- The value of the term of a column; none for an empty literal. -/
def value (d : Decoder) (kind : ValueKind) (t : Term) : Outcome (Option Value) :=
  match kind, t with
  | .reference model, .iri i => .ok (some (d.reference model i.text))
  | _, t => do
    let value ← d.schema.decode t
    return if isEmptyLiteral t then none else some value

/-- The value of an unpacked text. -/
def textValue (d : Decoder) (kind : ValueKind) (s : String) : Outcome Value :=
  match kind with
  | .scalar kind => Scalar.decodeText kind s
  | .reference model => .ok (d.reference model s)
  | .type => .ok (.str (d.schema.modelNameOrUri s))
  | .any => .ok (.str s)

/-- The members of an unpacked object, without blank ones. -/
def memberValues (d : Decoder) (kinds : Dict ValueKind) :
    Dict String → Outcome (Dict Value)
  | [] => .ok []
  | (key, s) :: rest => do
    let value ← d.textValue ((Dict.get? key kinds).getD .any) s
    let others ← memberValues d kinds rest
    return if isBlank value then others else (key, value) :: others

/-- The value of the term of a column; none where there is none. -/
def columnValue (d : Decoder) (c : DecodedColumn) (t : Term) : Outcome (Option Value) :=
  match c.kind with
  | .value kind => d.value kind t
  | .values kind => do
    let texts ← Packing.unpackValues c.field t.lexical
    let values ← texts.mapM (d.textValue kind)
    return some (.arr (sortValues c.direction values))
  | .objects kinds single => do
    let unpacked ← Packing.unpackObjects c.field t.lexical
    let objects ← unpacked.mapM (d.memberValues kinds)
    let values := sortValues c.direction ((objects.filter (!·.isEmpty)).map .obj)
    return if single then values.head? else some (.arr values)

/-- The document with a value at a nested place, unless the value is blank. -/
def insertValue (document : Document) (path : List String) (v : Value) : Document :=
  if isBlank v then document else document.insertNested path v

/-- The document with the value of one more column. A column that the query does
not know is decoded by its term, and not at all if its name is no field. -/
def addBinding (d : Decoder) (document : Document) (v : Variable) (t : Term) :
    Outcome Document :=
  match Dict.get? v.name d.columns with
  | some c => do
    match ← d.columnValue c t with
    | some value => return insertValue document (Text.split '.' c.field) value
    | none => return document
  | none =>
    match outputSegments? v.name with
    | some segments => do return insertValue document segments (← d.schema.decode t)
    | none => .ok document

/-- The document of a row. -/
def decode (d : Decoder) (row : List (Variable × Term)) : Outcome Document :=
  row.foldlM (fun document (v, t) => d.addBinding document v t) []

end Decoder

end DocGraph
