import DocGraph.Schema.Basic

/-!
# Defining a schema

The definitions of models and properties, and the schema they make. `build`
refuses names that are no identifiers, names defined twice, relations to unknown
models, and inverse relations that do not invert a relation back to their owner.
An inverse relation has the predicate of the relation it inverts.
-/

namespace DocGraph

open Rdf (Iri)

/-- What the default URIs begin with. -/
structure UriPrefixes where
  /-- A class URI goes on with the name of the model. -/
  classes : String
  /-- An instance URI goes on with the lower case name of the model, a slash and
  the identifier. -/
  instances : String
  /-- A predicate goes on with the name of the model, a slash and the name of the
  property. -/
  properties : String

/-- The texts below one base. -/
def UriPrefixes.ofBase (base : String) : UriPrefixes :=
  ⟨base ++ "classes/", base ++ "instances/", base ++ "properties/"⟩

/-- What a property is defined to point at. -/
inductive PropertyTarget where
  | scalar (kind : ScalarKind)
  | model (name : String)

/-- The target that a type name stands for: a kind of scalars, or else a
model. -/
def PropertyTarget.ofTypeName (name : String) : PropertyTarget :=
  match ScalarKind.ofName? name with
  | some kind => .scalar kind
  | none => .model name

/-- The definition of a property. -/
structure PropertyDefinition where
  name : String
  target : PropertyTarget
  isArray : Bool := false
  /-- The relation of the target that the property inverts. -/
  inverseOf : Option String := none
  /-- A predicate other than the default one. -/
  predicate : Option String := none

/-- The definition of a model. -/
structure ModelDefinition where
  name : String
  /-- A class URI other than the default one. -/
  classUri : Option String := none
  /-- What instance URIs begin with, if it is not the default. -/
  instancePrefix : Option String := none
  properties : List PropertyDefinition := []

/-- The definition of a schema. -/
structure SchemaDefinition where
  prefixes : UriPrefixes
  models : List ModelDefinition

/-- Whether a text is a letter followed by letters, digits and underscores, all
of them ASCII. -/
def isIdentifier (s : String) : Bool :=
  match s.toList with
  | [] => false
  | c :: cs => Iri.isLetter c && cs.all fun c => Iri.isLetter c || Number.isDigit c || c == '_'

/-- The IRI that a text is, or an error. -/
def absoluteIri (s : String) : Outcome Iri :=
  match Iri.ofText? s with
  | some i => .ok i
  | none => .error .malformedIri

/-- Fails with `fault` unless `condition` holds. -/
def SchemaFault.unless (fault : SchemaFault) (condition : Bool) : Outcome Unit :=
  if condition then .ok () else .error (.invalidSchema fault)

/-- The predicate of a relation or a scalar property that is stored itself. -/
structure StoredPredicate where
  model : String
  property : String
  predicate : Iri

namespace SchemaDefinition

/-- Checks the names of models, where `seen` are the ones before. -/
def checkModelNames (seen : List String) : List ModelDefinition → Outcome Unit
  | [] => .ok ()
  | m :: rest => do
    (SchemaFault.invalidName m.name).unless (isIdentifier m.name)
    (SchemaFault.modelTwice m.name).unless (!seen.contains m.name)
    checkModelNames (m.name :: seen) rest

/-- Checks a relation's target. -/
def checkTarget (d : SchemaDefinition) (model : String) (p : PropertyDefinition) : Outcome Unit :=
  match p.target with
  | .scalar _ => .ok ()
  | .model target =>
    (SchemaFault.unknownTarget model p.name target).unless (d.models.any (·.name = target))

/-- The predicate of a property that is no inverse relation. -/
def predicateOf (d : SchemaDefinition) (model : String) (p : PropertyDefinition) : Outcome Iri :=
  absoluteIri (p.predicate.getD (d.prefixes.properties ++ model ++ "/" ++ p.name))

/-- Checks the properties of a model and collects the predicates of those that
are stored, where `seen` are the names before. -/
def storedOfModel (d : SchemaDefinition) (model : String) (seen : List String) :
    List PropertyDefinition → Outcome (List StoredPredicate)
  | [] => .ok []
  | p :: rest => do
    (SchemaFault.invalidName p.name).unless (isIdentifier p.name)
    (SchemaFault.propertyTwice model p.name).unless (!seen.contains p.name)
    d.checkTarget model p
    let here ←
      match p.inverseOf with
      | none => (d.predicateOf model p).map fun i => [StoredPredicate.mk model p.name i]
      | some _ => .ok []
    let others ← storedOfModel d model (p.name :: seen) rest
    return here ++ others

/-- The predicates of all properties that are stored. -/
def stored (d : SchemaDefinition) : List ModelDefinition → Outcome (List StoredPredicate)
  | [] => .ok []
  | m :: rest => do
    let here ← d.storedOfModel m.name [] m.properties
    let others ← stored d rest
    return here ++ others

/-- Whether `origin` is defined as a relation of `target` to `model`. -/
def isOrigin (d : SchemaDefinition) (model target origin : String) : Bool :=
  match (d.models.find? (·.name = target)).bind fun m => m.properties.find? (·.name = origin) with
  | some p =>
    match p.target, p.inverseOf with
    | .model pointsAt, none => pointsAt = model
    | _, _ => false
  | none => false

/-- What a property of `model` points at. -/
def kindOf (d : SchemaDefinition) (model : String) (p : PropertyDefinition) :
    Outcome PropertyKind :=
  match p.target, p.inverseOf with
  | .scalar kind, none => .ok (.scalar kind)
  | .scalar _, some _ => .error (.invalidSchema (.scalarInverse model p.name))
  | .model target, none => .ok (.relation target)
  | .model target, some origin => do
    (SchemaFault.invalidOrigin model target origin).unless (d.isOrigin model target origin)
    return .inverse target origin

/-- The predicate that stores a property of `model`, or the relation it
inverts. -/
def storedPredicate? (table : List StoredPredicate) (model property : String) : Option Iri :=
  (table.find? fun e => e.model = model ∧ e.property = property).map (·.predicate)

/-- The property of `model` that a definition makes. -/
def propertyOf (d : SchemaDefinition) (table : List StoredPredicate) (model : String)
    (p : PropertyDefinition) : Outcome Property := do
  let kind ← d.kindOf model p
  let predicate? :=
    match kind with
    | .inverse target origin => storedPredicate? table target origin
    | _ => storedPredicate? table model p.name
  match predicate? with
  | some predicate => return ⟨p.name, predicate, kind, p.isArray⟩
  | none => .error (.invalidSchema (.noPredicate model p.name))

/-- The model that a definition makes. -/
def modelOf (d : SchemaDefinition) (table : List StoredPredicate) (m : ModelDefinition) :
    Outcome Model := do
  let properties ← m.properties.mapM (d.propertyOf table m.name)
  let classUri ← absoluteIri (m.classUri.getD (d.prefixes.classes ++ m.name))
  return {
    name := m.name
    classUri := classUri
    instancePrefix := m.instancePrefix.getD (d.prefixes.instances ++ m.name.toLower ++ "/")
    properties := Dict.ofEntries (properties.map fun p => (p.name, p)) }

/-- The schema that the definitions make. -/
def build (d : SchemaDefinition) : Outcome Schema := do
  checkModelNames [] d.models
  let table ← d.stored d.models
  let models ← d.models.mapM (d.modelOf table)
  return ⟨models⟩

end SchemaDefinition

end DocGraph
