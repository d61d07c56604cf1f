import DocGraph.Schema.Basic

/-!
# Resolving paths

`Schema.resolve` follows a path from a model over its relations. Each segment
becomes a step with the model it starts from and what it names there. The
identifier and the type of an entity are named by the last segment only.
-/

namespace DocGraph

/-- What a segment names. -/
inductive StepTarget where
  /-- The identifier of the owner. -/
  | identity
  /-- The type of the owner. -/
  | type
  | property (p : Property)
  deriving DecidableEq

/-- A segment that has been resolved. -/
structure PathStep where
  owner : Model
  target : StepTarget
  deriving DecidableEq

/-- The property that a step names. -/
def PathStep.property? (s : PathStep) : Option Property :=
  match s.target with
  | .property p => some p
  | _ => none

/-- A path that has been resolved. -/
structure ResolvedPath where
  root : Model
  steps : List PathStep

namespace ResolvedPath

/-- The last step. -/
def terminal? (r : ResolvedPath) : Option PathStep :=
  r.steps.getLast?

/-- The property that the path ends with. -/
def property? (r : ResolvedPath) : Option Property :=
  r.terminal?.bind PathStep.property?

/-- The model of the instances that the path points at; scalars and types point
at none. -/
def entityModel? (r : ResolvedPath) : Option String :=
  match r.terminal? with
  | none => some r.root.name
  | some step =>
    match step.target with
    | .identity => some step.owner.name
    | .type => none
    | .property p => p.relatedModel?

end ResolvedPath

namespace Schema

/-- What the last segment of a path names. -/
def lastTarget? (m : Model) (segment : String) : Option StepTarget :=
  if segment = idKey then some .identity
  else if segment = typeKey then some .type
  else (m.property? segment).map .property

/-- What a segment before the last one names: a relation. -/
def relation? (m : Model) (segment : String) : Option (Property × String) :=
  if segment = idKey ∨ segment = typeKey then none
  else do
    let p ← m.property? segment
    let related ← p.relatedModel?
    return (p, related)

/-- The steps of a path from `owner`, where `unknown` is the error of a segment
that names nothing. -/
def stepsFrom (s : Schema) (unknown : Error) (owner : Model) :
    List String → Outcome (List PathStep)
  | [] => .ok []
  | [segment] =>
    match lastTarget? owner segment with
    | some target => .ok [⟨owner, target⟩]
    | none => .error unknown
  | segment :: next :: rest =>
    match relation? owner segment with
    | none => .error unknown
    | some (p, related) => do
      let m ← s.model related
      let steps ← stepsFrom s unknown m (next :: rest)
      return ⟨owner, .property p⟩ :: steps

/-- Follows a path from the model called `model`. -/
def resolve (s : Schema) (model : String) (path : Path) : Outcome ResolvedPath := do
  let root ← s.model model
  let steps ← s.stepsFrom (.unknownProperty model path.text) root path.segments
  return ⟨root, steps⟩

end Schema

end DocGraph
