import DocGraph.Query.Operator
import DocGraph.Schema.Path

/-!
# Conditions

A filter is a tree of comparisons. `eliminateNot` pushes negations down to the
comparisons by the laws of De Morgan, and `negate` does so for the negation of a
condition.
-/

namespace DocGraph

open Json (Value)

/-- A comparison of the values at a path with an operand. -/
structure Comparison where
  path : Path
  operator : Operator
  operand : Value

/-- A condition on documents. -/
inductive Condition where
  | compare (c : Comparison)
  | and (children : List Condition)
  | or (children : List Condition)
  | not (child : Condition)

/-- A comparison in normal form: `$exists` and `$nexists` have the operand
`true`, and with the operand `false` they stand for each other. -/
def Comparison.of (path : Path) (operator : Operator) (operand : Value) : Comparison :=
  match operator, operand with
  | .present, .bool false => ⟨path, .absent, .bool true⟩
  | .absent, .bool false => ⟨path, .present, .bool true⟩
  | .present, _ => ⟨path, .present, .bool true⟩
  | .absent, _ => ⟨path, .absent, .bool true⟩
  | operator, operand => ⟨path, operator, operand⟩

/-- The comparison with the inverse operator. -/
def Comparison.inverse (c : Comparison) : Comparison :=
  { c with operator := c.operator.inverse }

@[simp] theorem Comparison.inverse_inverse (c : Comparison) : c.inverse.inverse = c := by
  simp [Comparison.inverse]

namespace Condition

/-- A comparison as a condition. -/
def comparison (path : Path) (operator : Operator) (operand : Value) : Condition :=
  .compare (.of path operator operand)

/-- An equality. -/
def equals (path : Path) (operand : Value) : Condition :=
  comparison path .eq operand

mutual

/-- The negation of a condition, without `not`. -/
def negate : Condition → Condition
  | compare c => compare c.inverse
  | and children => or (negateAll children)
  | or children => and (negateAll children)
  | not child => eliminateNot child

/-- The negations of a list of conditions. -/
def negateAll : List Condition → List Condition
  | [] => []
  | c :: rest => negate c :: negateAll rest

/-- The condition without `not`. -/
def eliminateNot : Condition → Condition
  | compare c => compare c
  | and children => and (eliminateNotAll children)
  | or children => or (eliminateNotAll children)
  | not child => negate child

/-- The conditions without `not`. -/
def eliminateNotAll : List Condition → List Condition
  | [] => []
  | c :: rest => eliminateNot c :: eliminateNotAll rest

end

end Condition

end DocGraph
