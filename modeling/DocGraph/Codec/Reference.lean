import DocGraph.Schema.Definition
import DocGraph.Text.Percent

/-!
# References

The URIs of classes and instances. An instance URI is the text that the URIs of
its model begin with and the percent-encoded identifier, so that every text is
an identifier.
-/

namespace DocGraph.Schema

open Rdf (Iri)
open Text (Percent.encode Percent.decode? afterStart? trimChars)

/-- The class URI of a model. -/
def classUri (s : Schema) (model : String) : Outcome Iri := do
  return (← s.model model).classUri

/-- The URI of the instance of a model with an identifier. -/
def instanceUri (s : Schema) (model id : String) : Outcome Iri := do
  let m ← s.model model
  absoluteIri (m.instancePrefix ++ Percent.encode id)

/-- The identifier that a model's instance URI ends with. Slashes and hashes
around it do not count. -/
def idOfInstance? (m : Model) (uri : String) : Option String := do
  let rest ← afterStart? m.instancePrefix uri
  let id := trimChars ['/', '#'] rest
  if id = "" then none else Percent.decode? id

/-- The identifier of an instance of a model, or an error. -/
def idOfInstance (s : Schema) (model uri : String) : Outcome String := do
  let m ← s.model model
  match idOfInstance? m uri with
  | some id => .ok id
  | none => .error (.malformedUri model uri)

/-- The name of the model of a class URI, or an error. -/
def modelName (s : Schema) (uri : String) : Outcome String := do
  return (← s.modelOfClass uri).name

/-- The name of the model of a class URI; another URI stays as it is. -/
def modelNameOrUri (s : Schema) (uri : String) : String :=
  ((s.modelOfClass? uri).map (·.name)).getD uri

end DocGraph.Schema
