import DocGraph.Codec.Reference
import DocGraph.Codec.Scalar
import DocGraph.Schema.Resolve

/-!
# Values at a path

The term that stores a value at a path of a model, and the value of a term
without its path.
-/

namespace DocGraph.Schema

open Json (Value)
open Rdf (Iri Term)

/-- The URI of a referenced instance: an identifier in `model`, or an object
with an identifier and, if it differs, a model. -/
def encodeReference (s : Schema) (model path : String) : Value → Outcome Iri
  | .str id => s.instanceUri model id
  | .obj members =>
    match (Dict.get? idKey members).bind Value.str? with
    | some id => s.instanceUri (((Dict.get? typeKey members).bind Value.str?).getD model) id
    | none => .error (.invalidValue path .referenceWithoutId)
  | _ => .error (.invalidValue path .notAReference)

/-- The term that stores a value at a path: the class of a model at a type, the
instance at an identifier or a relation, and a literal at a scalar. -/
def encode (s : Schema) (model : String) (path : Path) (v : Value) : Outcome Term := do
  let resolved ← s.resolve model path
  match resolved.terminal? with
  | none => return .iri (← s.encodeReference model path.text v)
  | some step =>
    match step.target with
    | .type =>
      match v with
      | .str name => return .iri (← s.classUri name)
      | _ => .error (.invalidValue path.text .modelNotText)
    | .identity => return .iri (← s.encodeReference step.owner.name path.text v)
    | .property p =>
      match p.kind with
      | .scalar kind => return .literal (← Scalar.encode kind path.text v)
      | .relation related | .inverse related _ =>
        return .iri (← s.encodeReference related path.text v)

/-- The value of a term: a class URI is the name of its model, and other IRIs
and blank nodes are their text. -/
def decode (s : Schema) : Term → Outcome Value
  | .literal l => Scalar.decode l
  | .iri i => .ok (.str (s.modelNameOrUri i.text))
  | .blank name => .ok (.str name)

end DocGraph.Schema
