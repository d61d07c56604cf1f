import DocGraph.Compile.Filter
import DocGraph.Proofs.Sparql.Semantics

/-!
# What conditions mean

The terms that a path reaches from a term, and the documents that meet a
condition. A positive operator asks that some value at the path passes its test.
`$all` asks for one entity, reached by all hops but the last, that has every
listed value. A negative operator asks that its inverse fails.

An equality tests a value in one of two ways: whether it is the constant itself,
or whether it is equal to it as a value, so that one number is equal to all its
lexical forms. Which of the two it is, is a parameter of the meaning.
-/

namespace DocGraph

open Rdf (Graph Term rdfType)
open Sparql (Store)

/-- Whether a step leads from a term to another. An inverse relation is followed
against its predicate, from an instance of the model that it comes from. -/
def PathStep.Leads (s : Schema) (g : Graph) (step : PathStep) (x y : Term) : Prop :=
  match step.target with
  | .identity => x = y
  | .type => ⟨x, rdfType, y⟩ ∈ g
  | .property p =>
    match p.origin? with
    | none => ⟨x, p.predicate, y⟩ ∈ g
    | some (origin, _) =>
      ⟨y, p.predicate, x⟩ ∈ g ∧ ∃ c, s.classUri origin = .ok c ∧ ⟨y, rdfType, .iri c⟩ ∈ g

/-- Whether steps lead from a term to another. -/
def Reaches (s : Schema) (g : Graph) : List PathStep → Term → Term → Prop
  | [], x, y => x = y
  | step :: rest, x, z => ∃ y, step.Leads s g x y ∧ Reaches s g rest y z

/-- Whether steps reach every one of some values from one and the same entity. An
identifier at the end is no hop, and without hops the entity is the value. -/
def ReachesAll (s : Schema) (g : Graph) (steps : List PathStep) (x : Term) (values : List Term) :
    Prop :=
  match (withoutIdentity steps).getLast? with
  | none => ∀ v ∈ values, x = v
  | some last =>
    ∃ y, Reaches s g (withoutIdentity steps).dropLast x y ∧ ∀ v ∈ values, last.Leads s g y v

namespace FilterScope

/-- Whether a value passes the test of a positive operator. `exact` tells that an
equality means the constant itself. -/
def Passes (f : FilterScope) (store : Store) (exact : Bool) (c : Comparison) (operator : Operator)
    (v : Term) : Prop :=
  let related (r : Sparql.Relation) : Prop :=
    ∃ t, f.constant c.path c.operand = .ok t ∧ store.related r v t = some true
  let matched (flags : String) : Prop :=
    ∃ text expression, v.text? = some text ∧ c.operand = .str expression ∧
      store.regex text expression flags = some true
  match operator with
  | .eq => if exact then f.constant c.path c.operand = .ok v else related .equal
  | .gt => related .greater
  | .gte => related .greaterOrEqual
  | .lt => related .less
  | .lte => related .lessOrEqual
  | .oneOf =>
    ∃ ts, f.constants c.path c.operand = .ok ts ∧ ∃ t ∈ ts, store.related .equal v t = some true
  | .regex => matched ""
  | .iregex => matched "i"
  | .strlen =>
    ∃ text n length, v.text? = some text ∧ c.operand = .num n ∧ n.signed? = some length ∧
      (text.length : Int) = length
  | .present => True
  | _ => False

/-- Whether the values that a document has at a path are what a positive operator
asks for. -/
def Finds (f : FilterScope) (store : Store) (g : Graph) (exact : Bool) (c : Comparison)
    (operator : Operator) (x : Term) : Prop :=
  ∃ r, f.schema.resolve f.model c.path = .ok r ∧
    if operator = .all then
      ∃ values, f.constants c.path c.operand = .ok values ∧
        ReachesAll f.schema g r.steps x values
    else ∃ v, Reaches f.schema g r.steps x v ∧ f.Passes store exact c operator v

/-- Whether a document satisfies a comparison. A negative operator is the
negation of its inverse. -/
def Satisfies (f : FilterScope) (store : Store) (g : Graph) (exact : Comparison → Bool)
    (c : Comparison) (x : Term) : Prop :=
  match c.operator.polarity with
  | .positive => f.Finds store g (exact c) c c.operator x
  | .negative => ¬f.Finds store g (exact c) c c.operator.inverse x

mutual

/-- Whether a document meets a condition. -/
def Meets (f : FilterScope) (store : Store) (g : Graph) (exact : Comparison → Bool) (x : Term) :
    Condition → Prop
  | .compare c => f.Satisfies store g exact c x
  | .and children => MeetsAll f store g exact x children
  | .or children => MeetsAny f store g exact x children
  | .not child => ¬Meets f store g exact x child

/-- Whether a document meets all of some conditions. -/
def MeetsAll (f : FilterScope) (store : Store) (g : Graph) (exact : Comparison → Bool) (x : Term) :
    List Condition → Prop
  | [] => True
  | c :: rest => Meets f store g exact x c ∧ MeetsAll f store g exact x rest

/-- Whether a document meets one of some conditions. -/
def MeetsAny (f : FilterScope) (store : Store) (g : Graph) (exact : Comparison → Bool) (x : Term) :
    List Condition → Prop
  | [] => False
  | c :: rest => Meets f store g exact x c ∨ MeetsAny f store g exact x rest

end

/-- Whether an equality is compiled to a chain that ends in the constant. Its
inverse never is, since it asks whether a match exists. -/
def isInlined (f : FilterScope) (c : Comparison) : Bool :=
  c.operator = .eq ∧ (c.path.isIdentity ∨ c.path ∉ f.projected)

/-- Whether a term is an instance of the model. -/
def IsInstance (f : FilterScope) (g : Graph) (x : Term) : Prop :=
  ∃ c, f.schema.classUri f.model = .ok c ∧ ⟨x, rdfType, .iri c⟩ ∈ g

end FilterScope

mutual

/-- Whether a condition has no full-text search. -/
def Condition.isSearchFree : Condition → Bool
  | .compare c => c.operator ≠ .search ∧ c.operator ≠ .notSearch
  | .and children => allSearchFree children
  | .or children => allSearchFree children
  | .not child => child.isSearchFree

/-- Whether conditions have no full-text search. -/
def Condition.allSearchFree : List Condition → Bool
  | [] => true
  | c :: rest => c.isSearchFree && allSearchFree rest

end

end DocGraph
