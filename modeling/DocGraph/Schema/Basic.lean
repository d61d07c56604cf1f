import DocGraph.Rdf.Term
import DocGraph.Schema.Path

/-!
# Schemas

A schema is a list of models. A model has a class URI, a text that the URIs of
its instances begin with, and properties: scalars, relations to a model, and
inverse relations, which hold the instances whose relation points back.
-/

namespace DocGraph

open Rdf (Iri)

/-- What a property points at. -/
inductive PropertyKind where
  | scalar (kind : ScalarKind)
  /-- A stored reference to an instance of a model. -/
  | relation (model : String)
  /-- The instances of a model whose relation `property` points here. -/
  | inverse (model property : String)
  deriving DecidableEq

/-- A property of a model. -/
structure Property where
  name : String
  /-- The predicate that stores the property, or the relation it inverts. -/
  predicate : Iri
  kind : PropertyKind
  isArray : Bool
  deriving DecidableEq

namespace Property

/-- Whether the property is a relation of either direction. -/
def isRelation (p : Property) : Bool :=
  match p.kind with
  | .scalar _ => false
  | _ => true

/-- Whether the property is an inverse relation. -/
def isInverse (p : Property) : Bool :=
  match p.kind with
  | .inverse _ _ => true
  | _ => false

/-- The kind of a scalar property. -/
def scalarKind? (p : Property) : Option ScalarKind :=
  match p.kind with
  | .scalar k => some k
  | _ => none

/-- The model at the other end of a relation. -/
def relatedModel? (p : Property) : Option String :=
  match p.kind with
  | .scalar _ => none
  | .relation model => some model
  | .inverse model _ => some model

/-- The model and the relation that an inverse relation inverts. -/
def origin? (p : Property) : Option (String × String) :=
  match p.kind with
  | .inverse model property => some (model, property)
  | _ => none

end Property

/-- A model. -/
structure Model where
  name : String
  classUri : Iri
  /-- What the URI of every instance begins with. -/
  instancePrefix : String
  properties : Dict Property
  deriving DecidableEq

/-- The property with a given name. -/
def Model.property? (m : Model) (name : String) : Option Property :=
  Dict.get? name m.properties

/-- The models, in the order of their definition. -/
structure Schema where
  models : List Model

namespace Schema

/-- The model with a given name. -/
def model? (s : Schema) (name : String) : Option Model :=
  s.models.find? (·.name = name)

/-- The model with a given name, or an error. -/
def model (s : Schema) (name : String) : Outcome Model :=
  match s.model? name with
  | some m => .ok m
  | none => .error (.unknownModel name)

/-- The model of a class URI. Of two models with one class URI the later one
counts. -/
def modelOfClass? (s : Schema) (uri : String) : Option Model :=
  s.models.reverse.find? (·.classUri.text = uri)

/-- The model of a class URI, or an error. -/
def modelOfClass (s : Schema) (uri : String) : Outcome Model :=
  match s.modelOfClass? uri with
  | some m => .ok m
  | none => .error (.unknownModel uri)

/-- A property of a model, or an error. -/
def property (s : Schema) (model name : String) : Outcome Property := do
  let m ← s.model model
  match m.property? name with
  | some p => .ok p
  | none => .error (.unknownProperty model name)

end Schema

end DocGraph
