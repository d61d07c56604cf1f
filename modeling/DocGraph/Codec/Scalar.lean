import DocGraph.Rdf.Term
import DocGraph.Timestamp.Reader
import DocGraph.Error

/-!
# Scalars

Scalars as literals and back. Integers of 64 bits with a sign become
`xsd:integer`, other numbers `xsd:double`, and dates their canonical timestamp.
A literal that does not fit its datatype decodes to its lexical form.
-/

namespace DocGraph.Scalar

open Json (Value)
open Number (Binary64 Layout integer? decimal?)
open Rdf (Iri Literal xsd)

/-- The canonical timestamp of a date value, none when the value is no date. -/
def timestampText (v : Value) : Outcome (Option String) :=
  match Timestamp.ofValue? v with
  | none => .ok none
  | some t =>
    match t.text? with
    | some text => .ok (some text)
    | none => .error .timestampRange

/-- The number that a text is in JSON. -/
def jsonNumber? (cs : List Char) : Option Json.Number :=
  match Json.number? cs with
  | some (t, []) => Json.Number.ofText? t
  | _ => none

/-- Numbers of `xsd:double` are written positionally, without needless decimals.
A tie goes up. -/
def doubleLayout : Layout :=
  ⟨none, false, .up⟩

/-- A number, as a literal. -/
def ofNumber (n : Json.Number) : Literal :=
  match n.signed? with
  | some i => .ofInt i
  | none => .typed (doubleLayout.text n.toBinary64) (xsd "double")

/-- The truth value that a text stands for. -/
def truth? : String → Option Bool
  | "true" | "1" => some true
  | "false" | "0" => some false
  | _ => none

/-- A value as a literal of a kind. -/
def encode (kind : ScalarKind) (path : String) (v : Value) : Outcome Literal :=
  let mismatch := .error (.invalidValue path (.expected kind))
  match kind, v with
  | .string, .str s => .ok (.plain s)
  | .string, .num n => .ok (.plain n.text)
  | .string, .bool b => .ok (.plain (if b then "true" else "false"))
  | .number, .num n => .ok (ofNumber n)
  | .number, .str s =>
    match jsonNumber? (Text.trimmed s) with
    | some n => .ok (ofNumber n)
    | none => mismatch
  | .boolean, .bool b => .ok (.ofBool b)
  | .boolean, .str s =>
    match truth? s with
    | some b => .ok (.ofBool b)
    | none => mismatch
  | .date, v => do
    match ← timestampText v with
    | some text => .ok (.typed text (xsd "dateTime"))
    | none => mismatch
  | _, _ => mismatch

/-- The number that a lexical form stands for: an integer of 64 bits with a
sign, or else a finite decimal. -/
def number? (s : String) : Option Value :=
  let cs := Text.trimmed s
  match (integer? cs).filter fun n => -Json.signedBound ≤ n ∧ n < Json.signedBound with
  | some n => Value.ofInt? n
  | none => (decimal? cs).map fun x => .num (.float x)

/-- The datatypes of numbers. -/
def numericTypes : List String :=
  ["integer", "decimal", "double", "float", "long", "int", "short", "byte", "nonNegativeInteger",
    "nonPositiveInteger", "negativeInteger", "positiveInteger", "unsignedLong", "unsignedInt",
    "unsignedShort", "unsignedByte"]

/-- Whether a datatype is one of numbers. -/
def isNumeric (datatype : Iri) : Bool :=
  numericTypes.any fun name => datatype = xsd name

/-- The value of a lexical form of a kind. -/
def decodeText (kind : ScalarKind) (s : String) : Outcome Value :=
  match kind with
  | .string => .ok (.str s)
  | .number => .ok ((number? s).getD (.str s))
  | .boolean => .ok (((truth? s).map .bool).getD (.str s))
  | .date => do return .str ((← timestampText (.str s)).getD s)

/-- The kind of scalars that a datatype holds. -/
def kindOf (datatype : Iri) : ScalarKind :=
  if datatype = xsd "boolean" then .boolean
  else if isNumeric datatype then .number
  else if datatype = xsd "dateTime" ∨ datatype = xsd "date" then .date
  else .string

/-- The value of a literal. -/
def decode (l : Literal) : Outcome Value :=
  decodeText (kindOf l.datatype) l.value

end DocGraph.Scalar
