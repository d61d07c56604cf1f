import DocGraph.Compile.Hop
import DocGraph.Query.Condition
import DocGraph.Select.Lower

/-!
# Compiling filters

Every comparison has private variables, so no filter touches the columns or
another filter. An equality on a path that is no column is a chain that ends in
the constant, `$all` is one chain per value that shares all but the last hop,
and every other operator asks whether a match exists. Negative operators ask
that the match of their inverse does not.
-/

namespace DocGraph

open Json (Value)
open Rdf (Iri Literal Term Variable rdfType)
open Sparql (Expr)

/-- The predicates of full-text search. -/
structure FullText where
  /-- Binds the literals that match a search text. -/
  search : Iri
  /-- Requires that every term of the search text matches. -/
  matchAllTerms : Iri

/-- The predicates of full-text search unless others are given. -/
def FullText.standard : FullText :=
  ⟨⟨"http://www.bigdata.com/rdf/search#search"⟩,
    ⟨"http://www.bigdata.com/rdf/search#matchAllTerms"⟩⟩

/-- What a filter is compiled for. -/
structure FilterScope where
  schema : Schema
  model : String
  /-- The paths that columns hold. -/
  projected : List Path
  fullText : FullText

namespace FilterScope

/-- The term that an operand is at a path. -/
def constant (f : FilterScope) (path : Path) (operand : Value) : Outcome Term :=
  f.schema.encode f.model path operand

/-- The terms that an operand is at a path: those of a list, or else one. -/
def constants (f : FilterScope) (path : Path) : Value → Outcome (List Term)
  | .arr items => items.mapM (f.constant path)
  | operand => do return [← f.constant path operand]

/-- The test of a value by a positive operator. -/
def test (f : FilterScope) (c : Comparison) (operator : Operator) (value : Expr) : Outcome Expr :=
  let text := Expr.call .str [value]
  let related (r : Sparql.Relation) : Outcome Expr := do
    return .relation r value (.ofTerm (← f.constant c.path c.operand))
  match operator with
  | .eq => related .equal
  | .gt => related .greater
  | .gte => related .greaterOrEqual
  | .lt => related .less
  | .lte => related .lessOrEqual
  | .oneOf => do return .oneOf value ((← f.constants c.path c.operand).map .ofTerm)
  | .regex =>
    match c.operand with
    | .str pattern => .ok (.call .regex [text, .string pattern])
    | _ => .error (.invalidValue c.path.text .expressionNotText)
  | .iregex =>
    match c.operand with
    | .str pattern => .ok (.call .regex [text, .string pattern, .string "i"])
    | _ => .error (.invalidValue c.path.text .expressionNotText)
  | .strlen =>
    match c.operand with
    | .num n =>
      match n.signed? with
      | some length => .ok (.relation .equal (.call .strlen [text]) (.literal (.ofInt length)))
      | none => .error (.invalidValue c.path.text .lengthNotInteger)
    | _ => .error (.invalidValue c.path.text .lengthNotInteger)
  | operator => .error (.invalidQuery (.noValueTest operator.key))

/-- One chain per value, which share all hops but the last. -/
def allOf (f : FilterScope) (role : Role) (segments : List String) (steps : List PathStep)
    (values : List Term) : Outcome (List Element) :=
  let hops := withoutIdentity steps
  match hops.getLast? with
  | none => .ok (values.map isRoot)
  | some last => do
    let parent ← chain f.schema role segments hops.dropLast none
    let ends ← values.mapM fun v => hop f.schema parent.terminal last (.term v)
    return parent.elements ++ ends.flatten

/-- A filter that matches of some elements exist, or that none do. -/
def existence (negated : Bool) (elements : List Element) : List Element :=
  let found := Expr.hasMatch (groupPattern elements)
  [.filter (if negated then .not found else found)]

/-- The elements of the `index`-th comparison. -/
def comparison (f : FilterScope) (index : Nat) (c : Comparison) : Outcome (List Element) := do
  let resolved ← f.schema.resolve f.model c.path
  let steps := resolved.steps
  let segments := c.path.segments
  let role := Role.filter index
  let negated := c.operator.polarity = .negative
  let operator := c.operator.positive
  let along := chain f.schema role segments steps
  if operator = .eq ∧ ¬negated ∧ (c.path.isIdentity ∨ c.path ∉ f.projected) then
    return (← along (some (← f.constant c.path c.operand))).elements
  else if operator = .all then
    let elements ← f.allOf role segments steps (← f.constants c.path c.operand)
    return if negated then existence true elements else elements
  else if operator = .present then
    let elements := (← along none).elements
    if elements.isEmpty then
      return if negated then [.filter (.literal (.ofBool false))] else []
    else return existence negated elements
  else if operator = .search then
    match c.operand with
    | .str text =>
      let found ← along none
      return existence negated (found.elements ++
        [.statement found.terminal f.fullText.search (.term (.literal (.plain text))),
          .statement found.terminal f.fullText.matchAllTerms (.term (.literal (.plain "true")))])
    | _ => .error (.invalidValue c.path.text .searchNotText)
  else
    let found ← along none
    let test ← f.test c operator (.ofNode found.terminal)
    return existence negated (found.elements ++ [.filter test])

/-- The triple that binds the document inside a branch, so that the filters of
the branch are about it. -/
def anchor (f : FilterScope) : Outcome Element := do
  return .statement rootNode rdfType (.term (.iri (← f.schema.classUri f.model)))

/-- A union and the number after it. -/
def unionElement (branches : List (List Element) × Nat) : List Element × Nat :=
  ([.union branches.1], branches.2)

mutual

/-- The elements of a condition, or of its negation, with its comparisons
numbered from `n` on, and the next number. -/
def compile (f : FilterScope) (negated : Bool) (n : Nat) :
    Condition → Outcome (List Element × Nat)
  | .compare c => do
    return (← f.comparison n (if negated then c.inverse else c), n + 1)
  | .and children =>
    if negated then do
      return unionElement (← f.compileBranches true (← f.anchor) n children)
    else f.compileAll false n children
  | .or children =>
    if negated then f.compileAll true n children
    else do
      return unionElement (← f.compileBranches false (← f.anchor) n children)
  | .not child => compile f (!negated) n child

/-- The elements of a list of conditions that all hold. -/
def compileAll (f : FilterScope) (negated : Bool) (n : Nat) :
    List Condition → Outcome (List Element × Nat)
  | [] => .ok ([], n)
  | c :: rest => do
    let (here, n) ← compile f negated n c
    let (others, n) ← compileAll f negated n rest
    return (here ++ others, n)

/-- The branches of a union, one of which holds. -/
def compileBranches (f : FilterScope) (negated : Bool) (anchor : Element) (n : Nat) :
    List Condition → Outcome (List (List Element) × Nat)
  | [] => .ok ([], n)
  | c :: rest => do
    let (here, n) ← compile f negated n c
    let (others, n) ← compileBranches f negated anchor n rest
    return ((anchor :: here) :: others, n)

end

end FilterScope

end DocGraph
