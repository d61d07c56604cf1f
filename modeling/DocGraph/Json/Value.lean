import DocGraph.Dict
import DocGraph.Json.Event

/-!
# Document values

The values that documents, queries and configurations are made of, and reading
them from text. `raw?` keeps the members of an object as they are written, also
those with one key; `read?` orders them by key, the last of two with one key
counting. A value that is nested more than 127 deep is not read.
-/

namespace DocGraph.Json

/-- A document value. -/
inductive Value where
  | null
  | bool (b : Bool)
  | num (n : Number)
  | str (s : String)
  | arr (items : List Value)
  | obj (members : List (String × Value))
  deriving Inhabited

namespace Value

/-- The text, if the value is one. -/
def str? : Value → Option String
  | .str s => some s
  | _ => none

/-- The truth value, if the value is one. -/
def bool? : Value → Option Bool
  | .bool b => some b
  | _ => none

/-- The members, if the value is an object. -/
def obj? : Value → Option (Dict Value)
  | .obj members => some members
  | _ => none

/-- The items, if the value is an array. -/
def arr? : Value → Option (List Value)
  | .arr items => some items
  | _ => none

/-- Whether the value is `null`. -/
def isNull : Value → Bool
  | .null => true
  | _ => false

/-- An integer, as a value. -/
def ofInt? (n : Int) : Option Value :=
  (Number.ofInt? n).map .num

mutual

/-- The value with the members of all its objects in the order of their keys,
the last of two members with one key counting. -/
def canonical : Value → Value
  | .arr items => .arr (canonicalItems items)
  | .obj members => .obj (Dict.ofEntries (canonicalMembers members))
  | v => v

/-- The items in canonical form. -/
def canonicalItems : List Value → List Value
  | [] => []
  | v :: rest => canonical v :: canonicalItems rest

/-- The members in canonical form. -/
def canonicalMembers : List (String × Value) → List (String × Value)
  | [] => []
  | (k, v) :: rest => (k, canonical v) :: canonicalMembers rest

end

/-- A container that is being read, its latest part first. -/
inductive Open where
  | items (read : List Value)
  | members (read : List (String × Value)) (key : String)

/-- The open containers, innermost first, and the value once it is complete. -/
structure Building where
  containers : List Open
  value : Option Value

namespace Building

/-- How deep a value may be nested. -/
def maxDepth : Nat := 127

/-- Puts a complete value into the innermost open container. -/
def push (v : Value) : List Open → Building
  | [] => ⟨[], some v⟩
  | .items read :: rest => ⟨.items (v :: read) :: rest, none⟩
  | .members read key :: rest => ⟨.members ((key, v) :: read) key :: rest, none⟩

/-- Begins a container, unless that nests too deep. -/
def begin? (b : Building) (container : Open) : Option Building :=
  if b.containers.length < maxDepth then some ⟨container :: b.containers, none⟩ else none

/-- The building after one more event; none when it cannot be part of a
value. -/
def step? (b : Building) : Event → Option Building
  | .null => some (push .null b.containers)
  | .bool x => some (push (.bool x) b.containers)
  | .num t => (Number.ofText? t).map fun n => push (.num n) b.containers
  | .str s => some (push (.str s) b.containers)
  | .beginArray => b.begin? (.items [])
  | .beginObject => b.begin? (.members [] "")
  | .key k =>
    match b.containers with
    | .members read _ :: rest => some ⟨.members read k :: rest, none⟩
    | _ => none
  | .endArray =>
    match b.containers with
    | .items read :: rest => some (push (.arr read.reverse) rest)
    | _ => none
  | .endObject =>
    match b.containers with
    | .members read _ :: rest => some (push (.obj read.reverse) rest)
    | _ => none
  | .finish => some b
  | .fault => none

end Building

/-- The value of the events of a text. -/
def ofEvents? (es : List Event) : Option Value :=
  (es.foldlM Building.step? ⟨[], none⟩).bind (·.value)

/-- Reads a text, keeping the members of objects as they are written. -/
def raw? (s : String) : Option Value :=
  ofEvents? (events s)

/-- Reads a text. -/
def read? (s : String) : Option Value :=
  (raw? s).map canonical

end Value

end DocGraph.Json
