import DocGraph.Schema.Path

/-!
# Field paths

A path as it is written in a query. The first segment with a question mark in
front, and all after it, are optional: in `author.?editor.name` every document
has an author, but not every author needs an editor.
-/

namespace DocGraph

/-- A path and the index of its first optional segment. -/
structure FieldPath where
  path : Path
  optionalFrom : Option Nat
  deriving DecidableEq

namespace FieldPath

/-- The mark in front of an optional segment. -/
def optionalMark : Char := '?'

/-- Whether a segment is marked. -/
def isMarked (segment : String) : Bool :=
  segment.toList.head? == some optionalMark

/-- A segment without one mark. -/
def unmarked (segment : String) : String :=
  match segment.toList with
  | c :: rest => if c = optionalMark then String.ofList rest else segment
  | [] => segment

/-- The field path that a text names. Empty segments are left out, and of
several marks the first one counts. -/
def ofText (s : String) : FieldPath :=
  let segments := (Path.ofText s).segments
  ⟨⟨segments.map unmarked⟩, segments.findIdx? isMarked⟩

/-- A path without optional segments. -/
def required (path : Path) : FieldPath :=
  ⟨path, none⟩

/-- Whether some segment is optional. -/
def isOptional (p : FieldPath) : Bool :=
  p.optionalFrom.isSome

/-- The segments with the mark in its place. -/
def markedSegments (p : FieldPath) : List String :=
  match p.optionalFrom with
  | none => p.path.segments
  | some n => p.path.segments.modify n (String.singleton optionalMark ++ ·)

/-- The dotted text. -/
def text (p : FieldPath) : String :=
  Text.join '.' p.markedSegments

/-- What the optional paths of one block share: the segments up to the first
marked one, which is written with its mark. -/
def optionalGroup? (p : FieldPath) : Option String :=
  p.optionalFrom.map fun n => Text.join '.' (p.markedSegments.take (n + 1))

end FieldPath

end DocGraph
