import DocGraph.Error

/-!
# Filter operators

The operators that compare the values at a path with an operand. Every operator
has an inverse; the negative ones ask that no value matches.
-/

namespace DocGraph

/-- An operator of a filter. -/
inductive Operator where
  | eq
  | ne
  | gt
  | gte
  | lt
  | lte
  /-- The value is in a list. -/
  | oneOf
  | noneOf
  | regex
  | notRegex
  /-- A regular expression that ignores case. -/
  | iregex
  | notIregex
  /-- The length of the value as text. -/
  | strlen
  | notStrlen
  /-- There is a value. -/
  | present
  | absent
  /-- The path reaches every value of the operand. -/
  | all
  | notAll
  /-- Full-text search. -/
  | search
  | notSearch
  deriving DecidableEq

/-- Whether an operator asks for a matching value or for none. -/
inductive Polarity where
  | positive
  | negative
  deriving DecidableEq

namespace Operator

/-- All operators. -/
def list : List Operator :=
  [eq, ne, gt, gte, lt, lte, oneOf, noneOf, regex, notRegex, iregex, notIregex, strlen, notStrlen,
    present, absent, all, notAll, search, notSearch]

/-- The key of an operator in a query. -/
def key : Operator → String
  | eq => "$eq"
  | ne => "$ne"
  | gt => "$gt"
  | gte => "$gte"
  | lt => "$lt"
  | lte => "$lte"
  | oneOf => "$in"
  | noneOf => "$nin"
  | regex => "$regex"
  | notRegex => "$nregex"
  | iregex => "$iregex"
  | notIregex => "$niregex"
  | strlen => "$strlen"
  | notStrlen => "$nstrlen"
  | present => "$exists"
  | absent => "$nexists"
  | all => "$all"
  | notAll => "$nall"
  | search => "$search"
  | notSearch => "$nsearch"

/-- The operator with a key, or an error. -/
def ofKey (key : String) : Outcome Operator :=
  match list.find? (·.key = key) with
  | some op => .ok op
  | none => .error (.unknownOperator key)

/-- The operator that is meant to hold where this one does not. -/
def inverse : Operator → Operator
  | eq => ne
  | ne => eq
  | gt => lte
  | lte => gt
  | gte => lt
  | lt => gte
  | oneOf => noneOf
  | noneOf => oneOf
  | regex => notRegex
  | notRegex => regex
  | iregex => notIregex
  | notIregex => iregex
  | strlen => notStrlen
  | notStrlen => strlen
  | present => absent
  | absent => present
  | all => notAll
  | notAll => all
  | search => notSearch
  | notSearch => search

/-- Whether the operator asks for a matching value or for none. The order
comparisons all ask for one. -/
def polarity : Operator → Polarity
  | ne | noneOf | notRegex | notIregex | notStrlen | absent | notAll | notSearch => .negative
  | _ => .positive

/-- The operator whose matching value is asked for, or asked not to be. -/
def positive (op : Operator) : Operator :=
  match op.polarity with
  | .positive => op
  | .negative => op.inverse

@[simp] theorem ofKey_key (op : Operator) : ofKey op.key = .ok op := by
  cases op <;> rfl

@[simp] theorem inverse_inverse (op : Operator) : op.inverse.inverse = op := by
  cases op <;> rfl

@[simp] theorem polarity_positive (op : Operator) : op.positive.polarity = .positive := by
  cases op <;> rfl

end Operator

end DocGraph
