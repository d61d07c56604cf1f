import DocGraph.Schema.Kind

/-!
# Errors

Why a schema, a query, a value or a document is refused. Each cause is a
constructor, and `Error.message` writes it out.
-/

namespace DocGraph

/-- Why a value does not fit its path. -/
inductive ValueFault where
  | modelNotText
  | referenceWithoutId
  | notAReference
  /-- The value is of another kind than the one named. -/
  | expected (kind : ScalarKind)
  | notAnArray
  | searchNotText
  | expressionNotText
  | lengthNotInteger
  | packedText
  | packedMember

/-- Why a query is malformed. -/
inductive QueryFault where
  | notAnObject
  | unknownKey (key : String)
  | objectExpected (name : String)
  | arrayField (name : String)
  | fieldWithoutProperty (name : String)
  | invalidSelector (name : String)
  | memberNotPath (member name : String)
  | aggregatorNotText (name : String)
  | noAggregator (name : String)
  | aggregateWithoutProperty (name : String)
  | aggregateWithoutFields (name : String)
  | countExpected (key : String)
  | listExpected (key : String)
  | invalidName (name : String)
  | fieldAndAggregate (name : String)
  | noValueTest (operator : String)
  | booleanResults

/-- Why a schema is inconsistent. -/
inductive SchemaFault where
  | invalidName (name : String)
  | modelTwice (name : String)
  | propertyTwice (model property : String)
  | unknownTarget (model property target : String)
  | scalarInverse (model property : String)
  | invalidOrigin (model target origin : String)
  | noPredicate (model property : String)

/-- Why an operation fails. -/
inductive Error where
  | unknownProperty (model path : String)
  | unknownModel (name : String)
  | unknownAggregator (name : String)
  | unknownOperator (key : String)
  | unknownSortTarget (name : String)
  | invalidSortInput (input : String)
  | malformedUri (model uri : String)
  | missingIdentity
  | invalidValue (path : String) (fault : ValueFault)
  | invalidQuery (fault : QueryFault)
  | invalidSchema (fault : SchemaFault)
  /-- A text is no absolute IRI. -/
  | malformedIri
  /-- A text is no name of a variable. -/
  | malformedVariable
  /-- A text is no configuration, or no JSON. -/
  | malformedConfig
  /-- A text is no results document. -/
  | malformedResults
  /-- A timestamp lies in no year of the calendar. -/
  | timestampRange

/-- The reason in words. -/
def ValueFault.message : ValueFault → String
  | modelNotText => "a model name must be a string"
  | referenceWithoutId => "a referenced document needs an _id"
  | notAReference => "a reference must be an id or an \x7b_id, _type\x7d object"
  | expected kind => "expected a " ++ kind.name
  | notAnArray => "the property is not an array"
  | searchNotText => "expected a string"
  | expressionNotText => "a regular expression must be a string"
  | lengthNotInteger => "a string length must be an integer"
  | packedText => "malformed packed array"
  | packedMember => "malformed packed array: object members must be strings"

/-- The reason in words. -/
def QueryFault.message : QueryFault → String
  | notAnObject => "a query must be an object"
  | unknownKey key => "unknown query key '" ++ key ++ "'"
  | objectExpected name => "'" ++ name ++ "' must be an object"
  | arrayField name => "the array field '" ++ name ++ "' must name exactly one path"
  | fieldWithoutProperty name => "the field '" ++ name ++ "' needs a '$property'"
  | invalidSelector name => "invalid selector for the field '" ++ name ++ "'"
  | memberNotPath member name => "the member '" ++ member ++ "' of '" ++ name ++ "' must be a path"
  | aggregatorNotText name => "the aggregator of '" ++ name ++ "' must be a string"
  | noAggregator name => "the aggregate '" ++ name ++ "' has no aggregator"
  | aggregateWithoutProperty name => "the aggregate '" ++ name ++ "' needs a '$property'"
  | aggregateWithoutFields name => "the aggregate '" ++ name ++ "' needs '$fields'"
  | countExpected key => "'" ++ key ++ "' must be a non-negative integer"
  | listExpected key => "'" ++ key ++ "' expects a list of filters"
  | invalidName name => "'" ++ name ++ "' is not a valid field name"
  | fieldAndAggregate name => "'" ++ name ++ "' is both a field and an aggregate"
  | noValueTest operator => "'" ++ operator ++ "' has no value test"
  | booleanResults => "expected solutions, got a boolean result"

/-- The reason in words. -/
def SchemaFault.message : SchemaFault → String
  | invalidName name => "'" ++ name ++ "' is not a valid identifier"
  | modelTwice name => "Model '" ++ name ++ "' is defined twice"
  | propertyTwice model property =>
    "Property '" ++ property ++ "' is defined twice on '" ++ model ++ "'"
  | unknownTarget model property target =>
    "Property '" ++ model ++ "." ++ property ++ "' references unknown model '" ++ target ++ "'"
  | scalarInverse model property =>
    "Scalar property '" ++ model ++ "." ++ property ++ "' cannot be an inverse relation"
  | invalidOrigin model target origin =>
    "Inverse relation on '" ++ model ++ "' requires '" ++ target ++ "." ++ origin ++
      "' to be a relation to '" ++ model ++ "'"
  | noPredicate model property =>
    "No predicate could be determined for '" ++ model ++ "." ++ property ++ "'"

/-- The error in words. The malformed texts that a standard defines have no
words of their own. -/
def Error.message : Error → String
  | unknownProperty model path =>
    "The property '" ++ path ++ "' is not defined on model '" ++ model ++ "'"
  | unknownModel name => "The model '" ++ name ++ "' is not registered"
  | unknownAggregator name => "Unknown aggregator '" ++ name ++ "'"
  | unknownOperator key => "Unknown filter operator '" ++ key ++ "'"
  | unknownSortTarget name =>
    "Cannot sort by '" ++ name ++ "' as it is neither a projected field nor an aggregate"
  | invalidSortInput input => "Sort directives must be a list of names, got " ++ input
  | malformedUri model uri =>
    "The URI <" ++ uri ++ "> is not an instance URI of model '" ++ model ++ "'"
  | missingIdentity => "The document must carry both an '_id' and a '_type'"
  | invalidValue path fault => "Invalid value for '" ++ path ++ "': " ++ fault.message
  | invalidQuery fault => "Invalid query: " ++ fault.message
  | invalidSchema fault => "Invalid schema: " ++ fault.message
  | malformedIri => "malformed IRI"
  | malformedVariable => "malformed variable name"
  | malformedConfig => "malformed configuration"
  | malformedResults => "malformed results document"
  | timestampRange => "timestamp outside of the calendar"

/-- The outcome of an operation that can fail. -/
abbrev Outcome (α : Type u) := Except Error α

end DocGraph
