import DocGraph.Document
import DocGraph.Rdf.Variable
import DocGraph.Text.Split

/-!
# Names of columns and variables

Every variable of a query is named after a path and the role it plays. The
segments are joined with a middle dot, which a variable may hold and a property
name may not. Columns that carry results are named after their field alone;
the names of all other variables begin with an underscore.
-/

namespace DocGraph

open Rdf (Variable)

/-- The part that a variable plays in a query. -/
inductive Role where
  /-- A column of the results. -/
  | output
  /-- The node that a path reaches. -/
  | node
  /-- A value that is encoded to be packed. -/
  | encoded
  /-- The packed values of a column. -/
  | packed
  /-- A private variable of a comparison. -/
  | filter (index : Nat)
  deriving DecidableEq

namespace Role

/-- The character between the segments of a name. -/
def separator : Char := '\u00b7'

/-- What the names of a role begin with. -/
def tag? : Role → Option String
  | output => none
  | node => some "_p"
  | encoded => some "_e"
  | packed => some "_g"
  | filter index => some ("_filter" ++ toString index)

end Role

/-- The name of the variable of the document itself. -/
def rootName : String := "_root"

/-- The variable of the document itself. -/
def rootVariable : Variable :=
  ⟨rootName⟩

/-- The name of the variable with a role at a path. -/
def variableName (role : Role) (segments : List String) : String :=
  let joined := Text.join Role.separator segments
  match role.tag? with
  | none => joined
  | some tag =>
    if joined = "" then (if role = .node then rootName else tag)
    else tag ++ String.singleton Role.separator ++ joined

/-- The variable with a role at a path, or an error. -/
def variableAt (role : Role) (segments : List String) : Outcome Variable :=
  match Variable.ofName? (variableName role segments) with
  | some v => .ok v
  | none => .error .malformedVariable

/-- The variable with a role for a dotted field name, or an error. -/
def fieldVariable (role : Role) (field : String) : Outcome Variable :=
  variableAt role (Text.split '.' field)

/-- The variable of the column of a field, or an error. -/
def outputVariable (field : String) : Outcome Variable :=
  fieldVariable .output field

/-- The segments of the field that a column is named after; none for the
variables of other roles. -/
def outputSegments? (name : String) : Option (List String) :=
  if name.toList.head? = some '_' ∧ name ≠ idKey ∧ name ≠ typeKey then none
  else some (Text.split Role.separator name)

end DocGraph
