import DocGraph.Proofs.Sparql.Solution
import DocGraph.Sparql.Update
import DocGraph.Text.Percent
import Mathlib.Data.Finset.Image

/-!
# What patterns mean

The solutions of a pattern over a set of quads, with bag semantics, and what an
update makes of the quads. A pattern is matched in an active graph, which is the
default one outside of a graph pattern; a named graph without quads is read as
an empty graph.

The variables of a solution that a pattern inside `EXISTS` is matched for are
substituted: they stand for their terms there (`Context.given`). A term in a
pattern stands for itself. This goes for blank nodes too, which only a
substitution brings into a pattern.

What the standard leaves open, or takes from other standards, is up to a
`Store`: the order in which the values of a group are concatenated and in which
rows come, the values of literals, regular expressions and sums.
-/

namespace DocGraph.Rdf

/-- A triple of terms. -/
structure Statement where
  subject : Term
  predicate : Iri
  object : Term
  deriving DecidableEq

/-- A set of statements. -/
abbrev Graph := Finset Statement

/-- A statement in a named graph, or in the default one. -/
structure GroundQuad where
  statement : Statement
  graph : Option Iri
  deriving DecidableEq

/-- A set of quads. -/
abbrev Dataset := Finset GroundQuad

/-- The statements of one graph. -/
def Dataset.graph (d : Dataset) (g : Option Iri) : Graph :=
  (d.filter (·.graph = g)).image (·.statement)

/-- The quads of a default graph. -/
def Graph.dataset (g : Graph) (name : Option Iri) : Dataset :=
  g.image fun s => ⟨s, name⟩

theorem Dataset.mem_graph {d : Dataset} {g : Option Iri} {s : Statement} :
    s ∈ d.graph g ↔ ⟨s, g⟩ ∈ d := by
  simp only [Dataset.graph, Finset.mem_image, Finset.mem_filter]
  constructor
  · rintro ⟨⟨s', g'⟩, ⟨h, rfl⟩, rfl⟩
    exact h
  · intro h
    exact ⟨⟨s, g⟩, ⟨h, rfl⟩, rfl⟩

theorem Graph.graph_dataset (g : Graph) (name : Option Iri) : (g.dataset name).graph name = g := by
  ext s
  rw [Dataset.mem_graph, dataset, Finset.mem_image]
  exact ⟨fun ⟨_, h, he⟩ => (GroundQuad.mk.inj he).1 ▸ h, fun h => ⟨s, h, rfl⟩⟩

/-- The text of a term; blank nodes have none. -/
def Term.text? : Term → Option String
  | .iri i => some i.text
  | .literal l => some l.value
  | .blank _ => none

/-- The text of a string, with or without a language tag. -/
def Term.string? : Term → Option String
  | .literal (.plain value) => some value
  | .literal (.tagged value _) => some value
  | _ => none

end DocGraph.Rdf

namespace DocGraph.Sparql

open Rdf (Dataset Graph GroundQuad Iri Literal Statement Term Variable)
open Text (Percent.encode)

/-- Whether a relation holds between two integers. -/
def Relation.holds (m n : Int) : Relation → Bool
  | .equal => m = n
  | .greater => n < m
  | .greaterOrEqual => n ≤ m
  | .less => m < n
  | .lessOrEqual => m ≤ n

/-- What a store decides. A result of none is an error. -/
structure Store where
  /-- Whether two literals are related by their values. -/
  compare : Relation → Literal → Literal → Option Bool
  compare_int : ∀ r m n, compare r (.ofInt m) (.ofInt n) = some (r.holds m n)
  /-- Whether a text matches a regular expression under some flags. -/
  regex : (text expression flags : String) → Option Bool
  /-- The truth value of a literal that is neither a boolean nor a string. -/
  truth : Literal → Option Bool
  /-- The sum, the average, the least and the greatest of the values of a
  group. -/
  reduce : Reduction → Multiset Term → Option Term
  /-- The order in which the texts of a group are concatenated for a column. -/
  arrange : Variable → Solution → Multiset String → List String
  arrange_perm : ∀ v k ss, (arrange v k ss : Multiset String) = ss
  /-- The order in which the solutions of a pattern come. -/
  sequence : Pattern → Solutions → List Solution
  sequence_perm : ∀ p ss, (sequence p ss : Solutions) = ss

/-- What a pattern is matched in. -/
structure Context where
  store : Store
  data : Dataset
  /-- The active graph. -/
  graph : Option Iri := none
  /-- The variables that terms are substituted for. -/
  given : Solution := .empty

namespace Context

/-- The statements of the active graph. -/
def statements (c : Context) : Graph :=
  c.data.graph c.graph

/-- The context inside a named graph. -/
def within (c : Context) (g : Iri) : Context :=
  { c with graph := some g }

/-- The context with the bindings of a solution substituted. -/
def substituted (c : Context) (μ : Solution) : Context :=
  { c with given := c.given.merge μ }

/-- The term that a variable stands for. -/
def value? (c : Context) (μ : Solution) (v : Variable) : Option Term :=
  (c.given v).or (μ v)

end Context

/-! ## Triples -/

/-- The solution that makes a node match a term, if one extends `μ`. -/
def Node.match? (c : Context) (μ : Solution) (n : Node) (t : Term) : Option Solution :=
  match n with
  | .term u => if u = t then some μ else none
  | .var v =>
    match c.value? μ v with
    | some u => if u = t then some μ else none
    | none => some (μ.set v t)

/-- The solution that makes a predicate match an IRI, if one extends `μ`. -/
def Predicate.match? (c : Context) (μ : Solution) (p : Predicate) (i : Iri) : Option Solution :=
  match p with
  | .iri j => if j = i then some μ else none
  | .var v => (Node.var v).match? c μ (.iri i)

/-- The solution that makes a triple match a statement, if one extends `μ`. -/
def Triple.match? (c : Context) (μ : Solution) (t : Triple) (s : Statement) : Option Solution := do
  let μ ← t.subject.match? c μ s.subject
  let μ ← t.predicate.match? c μ s.predicate
  t.object.match? c μ s.object

/-- The solutions of a triple. -/
def Triple.solutions (c : Context) (t : Triple) : Solutions :=
  c.statements.val.filterMap (t.match? c .empty)

/-- The solutions of a list of triples. -/
noncomputable def solutionsOf (c : Context) : List Triple → Solutions
  | [] => {.empty}
  | t :: ts => .join (t.solutions c) (solutionsOf c ts)

/-! ## Values -/

/-- A truth value as a term. -/
def ofBool (b : Bool) : Term :=
  .literal (.ofBool b)

namespace Store

/-- Whether two terms are related. Only literals have values; other terms are
equal if they are the same. -/
def related (s : Store) (r : Relation) : Term → Term → Option Bool
  | .literal l, .literal m => s.compare r l m
  | t, u => if r = .equal then some (t = u) else none

/-- The truth value of a term, as a filter takes it. -/
def truthOf (s : Store) : Term → Option Bool
  | .literal (.typed value datatype) =>
    if datatype = Rdf.xsd "boolean" then some (value = "true" ∨ value = "1")
    else s.truth (.typed value datatype)
  | .literal (.plain value) => some (value ≠ "")
  | .literal (.tagged value tag) => s.truth (.tagged value tag)
  | _ => none

/-- Whether a term is one of several. An error counts if none is equal. -/
def oneOf (s : Store) (t : Term) : List (Option Term) → Option Bool
  | [] => some false
  | u :: rest =>
    match u.bind (s.related .equal t), s.oneOf t rest with
    | some true, _ => some true
    | _, some true => some true
    | some false, found => found
    | none, _ => none

/-- The value of a function. -/
def call (s : Store) : Function → List Term → Option Term
  | .str, [t] => t.text?.map fun text => .literal (.plain text)
  | .concat, ts => (ts.mapM Term.string?).map fun texts => .literal (.plain (String.join texts))
  | .strlen, [t] => t.string?.map fun text => .literal (.ofInt text.length)
  | .encodeForUri, [t] => t.string?.map fun text => .literal (.plain (Percent.encode text))
  | .regex, [t, e] => do
    return ofBool (← s.regex (← t.string?) (← e.string?) "")
  | .regex, [t, e, flags] => do
    return ofBool (← s.regex (← t.string?) (← e.string?) (← flags.string?))
  | _, _ => none

end Store

/-- The conjunction of two truth values, false if one of them is. -/
def both : Option Bool → Option Bool → Option Bool
  | some false, _ => some false
  | _, some false => some false
  | some true, some true => some true
  | _, _ => none

/-- Texts with a separator between neighbours. -/
def concatenated (separator : String) (texts : List String) : String :=
  String.join (texts.intersperse separator)

/-- The value of an aggregate function of the values of a group. -/
def Reduction.apply (s : Store) (column : Variable) (key : Solution)
    (values : Multiset Term) : Reduction → Option Term
  | .count => some (.literal (.ofInt values.card))
  | .groupConcat separator =>
    some (.literal (.plain
      (concatenated separator (s.arrange column key (values.filterMap Term.text?)))))
  | r => s.reduce r values

/-! ## Patterns -/

open scoped Classical in
/-- The distinct keys of a bag of solutions. Without key variables there is one
group, also of no solutions. -/
noncomputable def groupKeys (keys : List Variable) (ss : Solutions) : Solutions :=
  if keys = [] then {.empty} else (ss.map (·.restrict keys)).dedup

open scoped Classical in
mutual

/-- The value of an expression for a solution. -/
noncomputable def Expr.eval : Expr → Context → Solution → Option Term
  | .iri i, _, _ => some (.iri i)
  | .literal l, _, _ => some (.literal l)
  | .var v, c, μ => c.value? μ v
  | .relation r a b, c, μ => do
    return ofBool (← c.store.related r (← a.eval c μ) (← b.eval c μ))
  | .and a b, c, μ =>
    (both ((a.eval c μ).bind c.store.truthOf) ((b.eval c μ).bind c.store.truthOf)).map ofBool
  | .not e, c, μ => ((e.eval c μ).bind c.store.truthOf).map fun b => ofBool !b
  | .oneOf e choices, c, μ => do
    return ofBool (← c.store.oneOf (← e.eval c μ) (Expr.evalAll choices c μ))
  | .call f args, c, μ => do
    c.store.call f (← (Expr.evalAll args c μ).mapM id)
  | .coalesce args, c, μ => (Expr.evalAll args c μ).findSome? id
  | .bound v, c, μ => some (ofBool (c.value? μ v).isSome)
  | .hasMatch p, c, μ => some (ofBool (decide (p.eval (c.substituted μ) ≠ 0)))

/-- The values of several expressions. -/
noncomputable def Expr.evalAll : List Expr → Context → Solution → List (Option Term)
  | [], _, _ => []
  | e :: rest, c, μ => e.eval c μ :: Expr.evalAll rest c μ

/-- The value of an aggregate over the solutions of a group. Solutions without a
value do not count. -/
noncomputable def Aggregate.eval : Aggregate → Context → Variable → Solution → Solutions →
    Option Term
  | .countAll distinct, _, _, _, ss =>
    some (.literal (.ofInt (if distinct then ss.dedup else ss).card))
  | .reduce r e distinct, c, column, key, ss =>
    let values := ss.filterMap (e.eval c)
    r.apply c.store column key (if distinct then values.dedup else values)

/-- The key of a group with the values of its aggregates. -/
noncomputable def Aggregate.bindAll : List (Variable × Aggregate) → Context → Solution →
    Solutions → Solution
  | [], _, key, _ => key
  | (v, a) :: rest, c, key, ss =>
    let μ := Aggregate.bindAll rest c key ss
    match a.eval c v key ss with
    | some t => μ.set v t
    | none => μ

/-- The solutions of a pattern. -/
noncomputable def Pattern.eval : Pattern → Context → Solutions
  | .bgp ts, c => solutionsOf c ts
  | .inverse s p o, c => Triple.solutions c ⟨o, .iri p, s⟩
  | .join l r, c => .join (l.eval c) (r.eval c)
  | .leftJoin l r, c => .leftJoin (l.eval c) (r.eval c)
  | .filter e p, c => (p.eval c).filter fun μ => (e.eval c μ).bind c.store.truthOf = some true
  | .union l r, c => l.eval c + r.eval c
  | .graph g p, c => p.eval (c.within g)
  | .extend p v e, c =>
    (p.eval c).map fun μ => match e.eval c μ with
      | some t => μ.set v t
      | none => μ
  | .group p keys aggregates, c =>
    (groupKeys keys (p.eval c)).map fun key =>
      Aggregate.bindAll aggregates c key ((p.eval c).filter fun μ => μ.restrict keys = key)
  | .orderBy p _, c => p.eval c
  | .project p columns, c => (p.eval c).map (·.restrict columns)
  | .distinct p, c => (p.eval c).dedup
  | .slice p start length, c =>
    let rows := (c.store.sequence p (p.eval c)).drop start
    ↑(match length with
      | some n => rows.take n
      | none => rows)

end

end DocGraph.Sparql
