import DocGraph.Number.Layout
import DocGraph.Number.Lexical

/-!
# Numbers of a document

A number is an integer that 64 bits hold, with or without a sign, or a finite
binary64 number. The text decides: without a point and an exponent it is an
integer if it fits, and the negative zero is always a binary64 number.
-/

namespace DocGraph.Json

open DocGraph.Number

/-- The least integer that 64 bits with a sign do not hold, and the size of the
greatest one below zero that they do. -/
abbrev signedBound : Int := 9223372036854775808

/-- The least natural number that 64 bits do not hold. -/
abbrev unsignedBound : Int := 18446744073709551616

/-- An integer that 64 bits hold, with or without a sign. -/
structure Integer where
  val : Int
  lower : -signedBound ≤ val
  upper : val < unsignedBound
  deriving DecidableEq

/-- A number of a document. -/
inductive Number where
  | integer (n : Integer)
  | float (x : Binary64)
  deriving DecidableEq

/-- The parts of a number as it is written: the digits before and after the
point, and the exponent if there is one. -/
structure NumberText where
  negative : Bool
  whole : List Char
  fraction : List Char
  exponent : Option Int

namespace Number

/-- An integer, if 64 bits hold it. -/
def ofInt? (n : Int) : Option Number :=
  if h : -signedBound ≤ n ∧ n < unsignedBound then some (.integer ⟨n, h.1, h.2⟩) else none

/-- The number as a signed integer of 64 bits, if it is one. -/
def signed? : Number → Option Int
  | .integer n => if n.val < signedBound then some n.val else none
  | .float _ => none

/-- The number as an unsigned integer of 64 bits, if it is one. -/
def unsigned? : Number → Option Nat
  | .integer n => if 0 ≤ n.val then some n.val.toNat else none
  | .float _ => none

/-- The nearest binary64 number. -/
def toBinary64 : Number → Binary64
  | .integer n => (Binary64.ofInt? n.val).getD (.zero false)
  | .float x => x

/-- Exponents from -5 to 15 are written positionally, and an integral value
keeps one decimal, so that it reads back as a binary64 number. A tie goes to the
even digit. -/
def floatLayout : Layout :=
  ⟨some (-5, 15), true, .toEven⟩

/-- The text of a number. -/
def text : Number → String
  | .integer n => toString n.val
  | .float x => floatLayout.text x

/-- The value of the leading digits that 64 bits hold, continuing from `n`, and
the digits that are left. -/
def leading (n : Nat) : List Char → Nat × List Char
  | [] => (n, [])
  | c :: cs =>
    let m := 10 * n + (c.toNat - 48)
    if (m : Int) < unsignedBound then leading m cs else (n, c :: cs)

/-- A power of ten, rounded to binary64. -/
def powerOfTen (n : Nat) : Binary64 :=
  (Binary64.ofInt? (Nat.pow 10 n)).getD (.zero false)

/-- A number times `10 ^ exponent`, scaled by at most one power of ten up to the
308th, or two when it is scaled down; none when the result is too large. A
number that 64 bits hold is zero when it is divided by more than the 616th. -/
def scaled? (x : Binary64) (exponent : Int) : Option Binary64 :=
  if x.isZero ∨ exponent < -616 then some (.zero x.negative)
  else if exponent < -308 then do
    (← x.div? (powerOfTen 308)).div? (powerOfTen (-308 - exponent).toNat)
  else if exponent < 0 then x.div? (powerOfTen (-exponent).toNat)
  else if exponent ≤ 308 then x.mul? (powerOfTen exponent.toNat)
  else none

/-- The binary64 number that a text is read as. The leading digits that 64 bits
hold are rounded as one integer; of the digits left, those before the point only
count as places. -/
def float? (t : NumberText) : Option Binary64 := do
  let (head, left) := leading 0 t.whole
  let (digits, unread) := leading head t.fraction
  let places : Int := (left.length : Int) - ((t.fraction.length : Int) - (unread.length : Int))
  let x ← Binary64.ofInt? digits
  scaled? { x with negative := t.negative } (places + t.exponent.getD 0)

/-- The number that a text is read as; none when it is too large. -/
def ofText? (t : NumberText) : Option Number :=
  let magnitude : Int := ofDigits t.whole
  let n := if t.negative then -magnitude else magnitude
  if t.fraction = [] ∧ t.exponent = none ∧ ¬(t.negative ∧ magnitude = 0) then
    match ofInt? n with
    | some number => some number
    | none => (float? t).map .float
  else (float? t).map .float

end Number

end DocGraph.Json
