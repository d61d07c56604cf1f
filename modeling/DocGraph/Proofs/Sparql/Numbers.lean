import DocGraph.Proofs.Number.Reading
import DocGraph.Proofs.Sparql.Semantics

/-!
# A store that compares numbers

Integers are compared as they are, and with a double as doubles. Strings are
compared by their characters, and any other literal is only equal to itself. The
store has no regular expressions, sums and averages, and leaves the order of rows
and of the texts of a group as it comes.
-/

namespace DocGraph.Sparql

open Number (Binary64 decimal? integer?)
open Rdf (Literal xsd)

/-- An integer or a double. -/
inductive Numeric where
  | integer (n : Int)
  | double (x : Binary64)

namespace Numeric

/-- The number that a literal stands for. -/
def ofLiteral? (l : Literal) : Option Numeric :=
  if l.datatype = xsd "integer" then (integer? l.value.toList).map .integer
  else if l.datatype = xsd "double" then (decimal? l.value.toList).map .double
  else none

/-- The nearest double. -/
def toDouble? : Numeric → Option Binary64
  | integer n => Binary64.ofInt? n
  | double x => some x

/-- A double as a multiple of the least positive one. -/
def signedUnits (x : Binary64) : Int :=
  if x.negative then -(x.units : Int) else x.units

/-- Whether two numbers are related. -/
def compare (r : Relation) : Numeric → Numeric → Option Bool
  | integer m, integer n => some (r.holds m n)
  | a, b => do return r.holds (signedUnits (← a.toDouble?)) (signedUnits (← b.toDouble?))

theorem ofLiteral?_ofInt (n : Int) : ofLiteral? (.ofInt n) = some (.integer n) := by
  change (if xsd "integer" = xsd "integer" then (integer? (toString n).toList).map integer
    else _) = _
  rw [if_pos rfl, Number.integer?_toString, Option.map_some]

end Numeric

/-- Whether two literals are related by their values. -/
def compareLiterals (r : Relation) (l m : Literal) : Option Bool :=
  match Numeric.ofLiteral? l, Numeric.ofLiteral? m with
  | some a, some b => a.compare r b
  | _, _ =>
    match l, m with
    | .plain s, .plain t =>
      some (match r with
        | .equal => s = t
        | .greater => t < s
        | .greaterOrEqual => t ≤ s
        | .less => s < t
        | .lessOrEqual => s ≤ t)
    | l, m => if r = .equal ∧ l = m then some true else none

/-- The store that compares numbers. -/
noncomputable def Store.numeric : Store where
  compare := compareLiterals
  compare_int r m n := by
    simp only [compareLiterals, Numeric.ofLiteral?_ofInt, Numeric.compare]
  regex _ _ _ := none
  truth _ := none
  reduce _ _ := none
  arrange _ _ texts := texts.toList
  arrange_perm _ _ texts := texts.coe_toList
  sequence _ solutions := solutions.toList
  sequence_perm _ solutions := solutions.coe_toList

theorem Store.compare_numeric (r : Relation) (l m : Literal) :
    Store.numeric.compare r l m = compareLiterals r l m := rfl

end DocGraph.Sparql
