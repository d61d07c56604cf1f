/-!
# Kinds of scalar properties
-/

namespace DocGraph

/-- The kind of a scalar property. -/
inductive ScalarKind where
  | string
  | number
  | boolean
  /-- Dates and times, both kept as timestamps. -/
  | date
  deriving DecidableEq

namespace ScalarKind

/-- The name of a kind in configurations. -/
def name : ScalarKind → String
  | string => "string"
  | number => "number"
  | boolean => "boolean"
  | date => "date"

/-- The kind with a given name. A date has a second name. -/
def ofName? : String → Option ScalarKind
  | "string" => some string
  | "number" => some number
  | "boolean" => some boolean
  | "date" | "datetime" => some date
  | _ => none

@[simp] theorem ofName?_name (k : ScalarKind) : ofName? k.name = some k := by
  cases k <;> rfl

end ScalarKind

end DocGraph
