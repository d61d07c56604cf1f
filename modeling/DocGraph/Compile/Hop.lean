import DocGraph.Codec.Value
import DocGraph.Column.Name
import DocGraph.Select.Algebra

/-!
# Hops

A path is matched hop by hop. An inverse relation is a hop against its
predicate, with a check of the class at its end: the predicate alone does not
tell which model points here. An identifier is the entity itself and no hop.
-/

namespace DocGraph

open Rdf (Term rdfType)
open Sparql (Expr Node)

/-- The elements that lead from `subject` over a step to `object`. -/
def hop (s : Schema) (subject : Node) (step : PathStep) (object : Node) : Outcome (List Element) :=
  match step.target with
  | .identity => .ok []
  | .type => .ok [.statement subject rdfType object]
  | .property p =>
    match p.origin? with
    | none => .ok [.statement subject p.predicate object]
    | some (origin, _) => do
      let classUri ← s.classUri origin
      return [.inverse subject p.predicate object,
        .statement object rdfType (.term (.iri classUri))]

/-- The node of the document itself. -/
def rootNode : Node :=
  .var rootVariable

/-- The steps without an identifier at their end. -/
def withoutIdentity (steps : List PathStep) : List PathStep :=
  match steps.getLast? with
  | some step => if step.target = .identity then steps.dropLast else steps
  | none => steps

/-- The elements along a path, and the node at its end. -/
structure Chain where
  elements : List Element
  terminal : Node

/-- The chain over steps from a node that the first `taken` segments lead to.
With a constant the last step leads to it. -/
def chainFrom (s : Schema) (role : Role) (segments : List String) (constant : Option Term)
    (subject : Node) (taken : Nat) : List PathStep → Outcome Chain
  | [] => .ok ⟨[], subject⟩
  | step :: rest => do
    let object ←
      match constant, rest with
      | some c, [] => .ok (.term c)
      | _, _ => (variableAt role (segments.take (taken + 1))).map .var
    let here ← hop s subject step object
    let further ← chainFrom s role segments constant object (taken + 1) rest
    return ⟨here ++ further.elements, further.terminal⟩

/-- The test that the document itself is a term. -/
def isRoot (t : Term) : Element :=
  .filter (.relation .equal (.var rootVariable) (.ofTerm t))

/-- The chain over a whole path from the document. With a constant it is the
test that the path reaches it. -/
def chain (s : Schema) (role : Role) (segments : List String) (steps : List PathStep)
    (constant : Option Term) : Outcome Chain :=
  match withoutIdentity steps, constant with
  | [], some c => .ok ⟨[isRoot c], .term c⟩
  | hops, constant => chainFrom s role segments constant rootNode 0 hops

end DocGraph
