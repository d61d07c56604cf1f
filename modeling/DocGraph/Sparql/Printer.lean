import DocGraph.Rdf.Printer
import DocGraph.Sparql.Algebra

/-!
# Writing queries

The concrete syntax of patterns and expressions. The layers around a pattern
that order, project and cut its solutions are written as one `SELECT`; a second
projection inside them is a query of its own.
-/

namespace DocGraph.Sparql

open Rdf (Iri Variable)

/-- Texts with one between neighbours. -/
def separated (separator : String) : List String → String
  | [] => ""
  | [s] => s
  | s :: rest => s ++ separator ++ separated separator rest

/-- A pattern in braces. -/
def braced (s : String) : String :=
  "\x7b " ++ s ++ " \x7d"

/-- A node. -/
def Node.text : Node → String
  | .var v => v.render
  | .term t => t.render

/-- A predicate. -/
def Predicate.text : Predicate → String
  | .var v => v.render
  | .iri i => i.render

/-- A triple. -/
def Triple.text (t : Triple) : String :=
  t.subject.text ++ " " ++ t.predicate.text ++ " " ++ t.object.text

/-- A hop against the direction of a predicate. -/
def inverseText (subject : Node) (predicate : Iri) (object : Node) : String :=
  subject.text ++ " ^(" ++ predicate.render ++ ") " ++ object.text

/-- The sign of a comparison. -/
def Relation.text : Relation → String
  | .equal => "="
  | .greater => ">"
  | .greaterOrEqual => ">="
  | .less => "<"
  | .lessOrEqual => "<="

/-- The name of a function. -/
def Function.text : Function → String
  | .str => "STR"
  | .concat => "CONCAT"
  | .regex => "REGEX"
  | .strlen => "STRLEN"
  | .encodeForUri => "ENCODE_FOR_URI"

/-- The name of an aggregate function. -/
def Reduction.name : Reduction → String
  | .count => "COUNT"
  | .sum => "SUM"
  | .avg => "AVG"
  | .min => "MIN"
  | .max => "MAX"
  | .groupConcat _ => "GROUP_CONCAT"

/-- What follows the argument of an aggregate function. -/
def Reduction.argument : Reduction → String
  | .groupConcat separator => "; SEPARATOR = " ++ Rdf.quoteLiteral separator
  | _ => ""

/-- A column that solutions are ordered by. -/
def SortKey.text (k : SortKey) : String :=
  (if k.descending then "DESC(" else "ASC(") ++ k.column.render ++ ")"

/-- The layers around a pattern. -/
structure Layers where
  columns : List Variable := []
  distinct : Bool := false
  order : Option (List SortKey) := none
  start : Nat := 0
  length : Option Nat := none

/-- The query with these layers around the text of a pattern. -/
def Layers.query (l : Layers) (body : String) : String :=
  "SELECT" ++ (if l.distinct then " DISTINCT" else "") ++
    (if l.columns.isEmpty then " *" else String.join (l.columns.map fun v => " " ++ v.render)) ++
    " WHERE " ++ braced body ++
    (match l.order with
      | none => ""
      | some keys => " ORDER BY" ++ String.join (keys.map fun k => " " ++ k.text)) ++
    (if 0 < l.start then " OFFSET " ++ toString l.start else "") ++
    (match l.length with
      | none => ""
      | some n => " LIMIT " ++ toString n)

/-- A pattern as it stands, or inside the layers of a query. -/
def within (layers : Option Layers) (body : String) : String :=
  match layers with
  | none => body
  | some l => l.query body

/-- Whether a pattern has to be in braces on the right of a join, where it would
otherwise change what is on the left. -/
def Pattern.modifiesLeft : Pattern → Bool
  | .leftJoin _ _ | .extend _ _ _ | .filter _ _ => true
  | _ => false

mutual

/-- An expression. -/
def Expr.text : Expr → String
  | .iri i => i.render
  | .literal l => l.render
  | .var v => v.render
  | .relation r a b => "(" ++ a.text ++ " " ++ r.text ++ " " ++ b.text ++ ")"
  | .and a b => "(" ++ a.text ++ " && " ++ b.text ++ ")"
  | .not (.hasMatch p) => "NOT EXISTS " ++ braced (p.textWithin none)
  | .not e => "!" ++ e.text
  | .oneOf e choices => "(" ++ e.text ++ " IN (" ++ separated ", " (Expr.texts choices) ++ "))"
  | .call f args => f.text ++ "(" ++ separated ", " (Expr.texts args) ++ ")"
  | .coalesce args => "COALESCE(" ++ separated ", " (Expr.texts args) ++ ")"
  | .bound v => "BOUND(" ++ v.render ++ ")"
  | .hasMatch p => "EXISTS " ++ braced (p.textWithin none)

/-- The texts of a list of expressions. -/
def Expr.texts : List Expr → List String
  | [] => []
  | e :: rest => e.text :: Expr.texts rest

/-- An aggregate. -/
def Aggregate.text : Aggregate → String
  | .countAll distinct => if distinct then "COUNT(DISTINCT *)" else "COUNT(*)"
  | .reduce r e distinct =>
    r.name ++ "(" ++ (if distinct then "DISTINCT " else "") ++ e.text ++ r.argument ++ ")"

/-- The aggregates of a group. -/
def Aggregate.texts : List (Variable × Aggregate) → List String
  | [] => []
  | (v, a) :: rest => (" (" ++ a.text ++ " AS " ++ v.render ++ ")") :: Aggregate.texts rest

/-- A pattern as it stands, or inside the layers of a query. -/
def Pattern.textWithin (layers : Option Layers) : Pattern → String
  | .bgp ts => within layers (String.join (ts.map fun t => t.text ++ " ."))
  | .inverse s p o => within layers (inverseText s p o ++ " .")
  | .join l r =>
    let right := r.textWithin none
    within layers (l.textWithin none ++ " " ++ if r.modifiesLeft then braced right else right)
  | .leftJoin l r => within layers (l.textWithin none ++ " OPTIONAL " ++ braced (r.textWithin none))
  | .filter e p => within layers (p.textWithin none ++ " FILTER(" ++ e.text ++ ")")
  | .union l r =>
    within layers (braced (l.textWithin none) ++ " UNION " ++ braced (r.textWithin none))
  | .graph name p => within layers ("GRAPH " ++ name.render ++ " " ++ braced (p.textWithin none))
  | .extend p v e =>
    within layers (p.textWithin none ++ " BIND(" ++ e.text ++ " AS " ++ v.render ++ ")")
  | .group p keys aggregates =>
    let names := String.join (keys.map fun v => " " ++ v.render)
    within layers ("\x7bSELECT" ++ String.join (Aggregate.texts aggregates) ++ names ++ " WHERE " ++
      braced (p.textWithin none) ++ (if keys.isEmpty then "" else " GROUP BY" ++ names) ++ "\x7d")
  | .orderBy p keys =>
    match layers with
    | none => braced (p.textWithin (some { order := some keys }))
    | some l => p.textWithin (some { l with order := some keys })
  | .project p columns =>
    match layers with
    | none => braced (p.textWithin (some { columns := columns }))
    | some l =>
      if l.columns.isEmpty then p.textWithin (some { l with columns := columns })
      else l.query (braced (p.textWithin (some { columns := columns })))
  | .distinct p =>
    match layers with
    | none => braced (p.textWithin (some { distinct := true }))
    | some l => p.textWithin (some { l with distinct := true })
  | .slice p start length =>
    match layers with
    | none => braced (p.textWithin (some { start := start, length := length }))
    | some l => p.textWithin (some { l with start := start, length := length })

end

/-- A pattern. -/
def Pattern.text (p : Pattern) : String :=
  p.textWithin none

/-- A pattern as a query. -/
def Pattern.query (p : Pattern) : String :=
  p.textWithin (some {})

end DocGraph.Sparql
