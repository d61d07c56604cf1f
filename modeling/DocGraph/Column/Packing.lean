import DocGraph.Error
import DocGraph.Json.Printer
import DocGraph.Text.Percent

/-!
# Packed columns

The values of an array come back from a query as one text: a JSON array of
percent-encoded strings, or of objects with percent-encoded members. The store
only concatenates, so the text is made of fixed fragments around the values.
-/

namespace DocGraph

open Json (Value)
open Text (Percent.decode?)

/-- How a column is packed. -/
inductive Packing where
  /-- An array of values. -/
  | values
  /-- An array of objects. -/
  | objects
  deriving DecidableEq

namespace Packing

/-- The text before the first element. -/
def opening : Packing → String
  | values => "[\""
  | objects => "["

/-- The text between two elements. -/
def separator : Packing → String
  | values => "\", \""
  | objects => ","

/-- The text after the last element. -/
def closing : Packing → String
  | values => "\"]"
  | objects => "]"

/-- The text before the value of the member of an object at an index. -/
def memberStart (index : Nat) (key : String) : String :=
  (if index = 0 then "\x7b" else "\",") ++ Json.quote key ++ ":\""

/-- The text after the last member of an object. -/
def objectEnd : String := "\"\x7d"

/-- The text that an element of a packed column at `path` stands for. -/
def decodeElement (path encoded : String) : Outcome String :=
  match Percent.decode? encoded with
  | some s => .ok s
  | none => .error (.invalidValue path .packedText)

/-- The texts of a packed array of values. Empty ones stand for no value and are
left out. -/
def unpackValues (path packed : String) : Outcome (List String) :=
  match ((Value.read? packed).bind Value.arr?).bind (·.mapM Value.str?) with
  | none => .error (.invalidValue path .packedText)
  | some elements => (elements.filter (· ≠ "")).mapM (decodeElement path)

/-- The members of one packed object, without the empty ones. -/
def unpackMembers (path : String) : List (String × Value) → Outcome (Dict String)
  | [] => .ok []
  | (key, .str encoded) :: rest => do
    let value ← decodeElement path encoded
    let others ← unpackMembers path rest
    return if value = "" then others else (key, value) :: others
  | _ :: _ => .error (.invalidValue path .packedMember)

/-- The objects of a packed array of objects. Empty members are left out, and
objects that have no others. -/
def unpackObjects (path packed : String) : Outcome (List (Dict String)) :=
  match ((Value.read? packed).bind Value.arr?).bind (·.mapM Value.obj?) with
  | none => .error (.invalidValue path .packedText)
  | some elements => do
    let unpacked ← elements.mapM (unpackMembers path)
    return unpacked.filter (· ≠ [])

end Packing

end DocGraph
