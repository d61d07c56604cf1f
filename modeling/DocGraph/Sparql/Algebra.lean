import DocGraph.Rdf.Term
import DocGraph.Rdf.Variable

/-!
# The algebra of queries

The part of the SPARQL algebra that documents are read with: graph patterns, the
expressions in them, and the aggregates of a group.
-/

namespace DocGraph.Sparql

open Rdf (Iri Literal Term Variable)

/-- A place of a triple pattern. -/
inductive Node where
  | var (v : Variable)
  | term (t : Term)
  deriving DecidableEq

/-- The middle of a triple pattern. -/
inductive Predicate where
  | var (v : Variable)
  | iri (i : Iri)
  deriving DecidableEq

/-- A triple pattern. -/
structure Triple where
  subject : Node
  predicate : Predicate
  object : Node
  deriving DecidableEq

/-- A comparison of two values. -/
inductive Relation where
  | equal
  | greater
  | greaterOrEqual
  | less
  | lessOrEqual
  deriving DecidableEq

/-- A function of values. -/
inductive Function where
  | str
  | concat
  | regex
  | strlen
  | encodeForUri
  deriving DecidableEq

/-- A function of the values of a group. -/
inductive Reduction where
  | count
  | sum
  | avg
  | min
  | max
  | groupConcat (separator : String)
  deriving DecidableEq

/-- A column that solutions are ordered by. -/
structure SortKey where
  column : Variable
  descending : Bool
  deriving DecidableEq

mutual

/-- An expression. -/
inductive Expr where
  | iri (i : Iri)
  | literal (l : Literal)
  | var (v : Variable)
  | relation (r : Relation) (a b : Expr)
  | and (a b : Expr)
  | not (e : Expr)
  /-- Whether a value is one of several. -/
  | oneOf (e : Expr) (choices : List Expr)
  | call (f : Function) (args : List Expr)
  /-- The first of several values that is bound. -/
  | coalesce (args : List Expr)
  | bound (v : Variable)
  /-- Whether a pattern matches. -/
  | hasMatch (p : Pattern)

/-- A value of a group. -/
inductive Aggregate where
  /-- The number of solutions. -/
  | countAll (distinct : Bool)
  | reduce (r : Reduction) (e : Expr) (distinct : Bool)

/-- A graph pattern. -/
inductive Pattern where
  | bgp (triples : List Triple)
  /-- The triples with `predicate` from `object` to `subject`. -/
  | inverse (subject : Node) (predicate : Iri) (object : Node)
  | join (left right : Pattern)
  | leftJoin (left right : Pattern)
  | filter (e : Expr) (p : Pattern)
  | union (left right : Pattern)
  | graph (name : Iri) (p : Pattern)
  | extend (p : Pattern) (v : Variable) (e : Expr)
  | group (p : Pattern) (keys : List Variable) (aggregates : List (Variable × Aggregate))
  | orderBy (p : Pattern) (keys : List SortKey)
  | project (p : Pattern) (columns : List Variable)
  | distinct (p : Pattern)
  | slice (p : Pattern) (start : Nat) (length : Option Nat)

end

/-- A plain string. -/
def Expr.string (s : String) : Expr :=
  .literal (.plain s)

/-- A term as an expression. A blank node stands for its name. -/
def Expr.ofTerm : Term → Expr
  | .iri i => .iri i
  | .blank name => .string name
  | .literal l => .literal l

/-- A node as an expression. -/
def Expr.ofNode : Node → Expr
  | .var v => .var v
  | .term t => .ofTerm t

/-- All of a list of expressions; none where there are none. -/
def Expr.conjunction? : List Expr → Option Expr
  | [] => none
  | e :: rest => some (rest.foldl .and e)

namespace Pattern

/-- The pattern with one empty solution. -/
def empty : Pattern :=
  .bgp []

/-- Whether a pattern is the empty one. -/
def isEmpty : Pattern → Bool
  | .bgp [] => true
  | _ => false

/-- The join of two patterns. The empty pattern is left out, and two lists of
triples become one. -/
def joined (left right : Pattern) : Pattern :=
  if right.isEmpty then left
  else if left.isEmpty then right
  else
    match left, right with
    | .bgp ts, .bgp us => .bgp (ts ++ us)
    | left, right => .join left right

end Pattern

end DocGraph.Sparql
