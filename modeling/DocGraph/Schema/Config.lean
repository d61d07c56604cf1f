import DocGraph.Schema.Definition

/-!
# Configurations

A schema and the graph it lives in, as JSON. A record is an object with known
keys, each at most once, or the array of its values in their order, of which
those with a default may be missing at the end. In `models` and `properties` the
last of two entries with one key counts.
-/

namespace DocGraph

open Json (Value)

/-- A property, as a configuration gives it. -/
structure PropertyConfig where
  typeName : String
  isArray : Bool
  inverseOf : Option String
  predicate : Option String

/-- A model, as a configuration gives it. -/
structure ModelConfig where
  classUri : Option String
  instancePrefix : Option String
  properties : Dict PropertyConfig

/-- A schema and the graph it lives in. -/
structure Config where
  graph : Option String
  prefixes : UriPrefixes
  models : Dict ModelConfig

namespace Config

/-- The value of each key of a record, none where it is missing. -/
def record? (keys : List String) : Value → Option (List (Option Value))
  | .obj members =>
    let given := members.map Prod.fst
    if given.all (keys.contains ·) ∧ given.Nodup then some (keys.map (Dict.get? · members))
    else none
  | .arr items =>
    if items.length ≤ keys.length then
      some (items.map some ++ List.replicate (keys.length - items.length) none)
    else none
  | _ => none

/-- A text that has to be given. -/
def text? : Option Value → Option String
  | some v => v.str?
  | none => none

/-- A text that may be missing or `null`. -/
def optionalText? : Option Value → Option (Option String)
  | none | some .null => some none
  | some v => v.str?.map some

/-- A truth value, false where it is missing. -/
def flag? : Option Value → Option Bool
  | none => some false
  | some v => v.bool?

/-- The entries of a map, none where it is missing. -/
def entries? (read? : Value → Option α) : Option Value → Option (Dict α)
  | none => some []
  | some v => do
    let members ← v.obj?
    let entries ← members.mapM fun (k, v) => (read? v).map (k, ·)
    return Dict.ofEntries entries

/-- Reads a property. -/
def property? (v : Value) : Option PropertyConfig := do
  match ← record? ["type", "array", "inverse", "predicate"] v with
  | [typeName, isArray, inverseOf, predicate] =>
    return ⟨← text? typeName, ← flag? isArray, ← optionalText? inverseOf, ← optionalText? predicate⟩
  | _ => none

/-- Reads a model. -/
def model? (v : Value) : Option ModelConfig := do
  match ← record? ["class_uri", "instance_prefix", "properties"] v with
  | [classUri, instancePrefix, properties] =>
    return ⟨← optionalText? classUri, ← optionalText? instancePrefix,
      ← entries? property? properties⟩
  | _ => none

/-- Reads a configuration from a value whose objects are as they are written. -/
def ofValue? (v : Value) : Option Config := do
  match ← record? ["graph", "class_prefix", "instance_prefix", "property_prefix", "models"] v with
  | [graph, classes, instances, properties, models] =>
    return ⟨← optionalText? graph, ⟨← text? classes, ← text? instances, ← text? properties⟩,
      ← entries? model? models⟩
  | _ => none

/-- Reads a configuration from its JSON text. -/
def ofText (s : String) : Outcome Config :=
  match (Value.raw? s).bind ofValue? with
  | some c => .ok c
  | none => .error .malformedConfig

end Config

/-- The definition that the configuration of a property makes. -/
def PropertyConfig.definition (c : PropertyConfig) (name : String) : PropertyDefinition :=
  { name := name
    target := .ofTypeName c.typeName
    isArray := c.isArray
    inverseOf := c.inverseOf
    predicate := c.predicate }

/-- The definition that the configuration of a model makes. -/
def ModelConfig.definition (c : ModelConfig) (name : String) : ModelDefinition :=
  { name := name
    classUri := c.classUri
    instancePrefix := c.instancePrefix
    properties := c.properties.map fun (name, p) => p.definition name }

/-- The definition of the schema, its models in the order of their names. -/
def Config.definition (c : Config) : SchemaDefinition :=
  ⟨c.prefixes, c.models.map fun (name, m) => m.definition name⟩

end DocGraph
