import DocGraph.Error
import DocGraph.Json.Value

/-!
# Documents

A document is an object whose keys are property names, with its identifier and
the name of its model under two reserved keys. `insertNested` writes at a nested
place and leaves every other place alone.
-/

namespace DocGraph

open Json (Value)

/-- A document. -/
abbrev Document := Dict Value

/-- The key of the identifier of a document. -/
def idKey : String := "_id"

/-- The key of the model name of a document. -/
def typeKey : String := "_type"

/-- What a document is: the model it belongs to and its identifier there. -/
structure Identity where
  model : String
  id : String
  deriving DecidableEq

namespace Document

/-- The text at a key, if there is one and it is not empty. -/
def name? (key : String) (d : Document) : Option String :=
  ((Dict.get? key d).bind Value.str?).filter (· ≠ "")

/-- The identity of a document. Both of its parts have to be there. -/
def identity (d : Document) : Outcome Identity :=
  match name? typeKey d, name? idKey d with
  | some model, some id => .ok ⟨model, id⟩
  | _, _ => .error .missingIdentity

/-- The members of the object at a key; none where there is no object. -/
def child (key : String) (d : Document) : Document :=
  ((Dict.get? key d).bind Value.obj?).getD []

/-- The document with `value` at a nested place. What is on the way and is no
object gives way to one. -/
def insertNested (d : Document) (path : List String) (value : Value) : Document :=
  match path with
  | [] => d
  | [key] => Dict.insert key value d
  | key :: rest => Dict.insert key (.obj (insertNested (child key d) rest value)) d

end Document

end DocGraph
