import DocGraph.Document
import DocGraph.Text.Split

/-!
# Property paths

A path is a list of segments, relative to a model; the empty path is the
document itself.
-/

namespace DocGraph

/-- A property path. -/
structure Path where
  segments : List String
  deriving DecidableEq

namespace Path

/-- The path of the document itself. -/
def root : Path :=
  ⟨[]⟩

/-- The path that a dotted text names. Empty segments are left out. -/
def ofText (s : String) : Path :=
  ⟨(Text.split '.' s).filter (· ≠ "")⟩

/-- The dotted text. -/
def text (p : Path) : String :=
  Text.join '.' p.segments

/-- Whether the path is that of the document itself. -/
def isRoot (p : Path) : Bool :=
  p.segments.isEmpty

/-- The last segment. -/
def last? (p : Path) : Option String :=
  p.segments.getLast?

/-- The path without its last segment. -/
def parent (p : Path) : Path :=
  ⟨p.segments.dropLast⟩

/-- The first `n` segments. -/
def take (n : Nat) (p : Path) : Path :=
  ⟨p.segments.take n⟩

/-- The number of segments. -/
def length (p : Path) : Nat :=
  p.segments.length

/-- The path `q` from where `p` ends. -/
def append (p q : Path) : Path :=
  ⟨p.segments ++ q.segments⟩

instance : Append Path := ⟨append⟩

/-- Whether the path names the identifier of an entity. -/
def isIdentity (p : Path) : Bool :=
  p.last? == some idKey

/-- Whether the path names the type of an entity. -/
def isType (p : Path) : Bool :=
  p.last? == some typeKey

/-- The order of paths: segment by segment, by code points. -/
def compare (p q : Path) : Ordering :=
  if p = q then .eq else if p.segments < q.segments then .lt else .gt

end Path

end DocGraph
