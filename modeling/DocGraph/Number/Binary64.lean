/-!
# Finite binary64 numbers

A finite number of the IEEE 754 format with 53 bits of precision, held exactly:
a sign and the exponent and fraction fields read as one natural number, whose
order is the order of the absolute values. Arithmetic is done on fractions of
natural numbers and rounded once, a half going to the even neighbour.
-/

namespace DocGraph.Number

/-- The number of values of the fraction field, which has 52 bits. -/
def fractions : Nat := 4503599627370496

/-- The fields of the least number that is too large for the format. -/
def overflow : Nat := 2047 * fractions

/-- A finite number with 53 bits of precision. -/
structure Binary64 where
  negative : Bool
  /-- The exponent and fraction fields, read as one number. -/
  magnitude : Nat
  magnitude_lt : magnitude < overflow
  deriving DecidableEq

/-- The quotient of two natural numbers, rounded to the nearest one, a half to
the even one. -/
def roundDiv (num den : Nat) : Nat :=
  let q := num / den
  let r := num % den
  if den < 2 * r ∨ (den = 2 * r ∧ q % 2 = 1) then q + 1 else q

namespace Binary64

/-- The zero of either sign. -/
def zero (negative : Bool) : Binary64 :=
  ⟨negative, 0, by decide⟩

/-- The integer `m` in the absolute value `m · 2 ^ (e - 1074)`. -/
def significand (x : Binary64) : Nat :=
  if x.magnitude < 2 * fractions then x.magnitude else x.magnitude % fractions + fractions

/-- The natural number `e` in the absolute value `m · 2 ^ (e - 1074)`. -/
def scale (x : Binary64) : Nat :=
  x.magnitude / fractions - 1

/-- The absolute value, as a multiple of the least positive number. -/
def units (x : Binary64) : Nat :=
  x.significand * Nat.pow 2 x.scale

/-- The number nearest to `num / den`; none when it is too large. -/
def ofRatio? (negative : Bool) (num den : Nat) : Option Binary64 :=
  let units := num * Nat.pow 2 1074
  let e := (units / den).log2 - 52
  let magnitude := e * fractions + roundDiv units (den * Nat.pow 2 e)
  if h : magnitude < overflow then some ⟨negative, magnitude, h⟩ else none

/-- The number nearest to an integer; none when it is too large. -/
def ofInt? (n : Int) : Option Binary64 :=
  ofRatio? (n < 0) n.natAbs 1

/-- The rounded product; none when it is too large. -/
def mul? (x y : Binary64) : Option Binary64 :=
  ofRatio? (x.negative != y.negative) (x.units * y.units) (Nat.pow 2 2148)

/-- The rounded quotient by a number that is not zero; none when it is too
large. -/
def div? (x y : Binary64) : Option Binary64 :=
  ofRatio? (x.negative != y.negative) x.units y.units

/-- Whether the number is a zero of either sign. -/
def isZero (x : Binary64) : Bool :=
  x.magnitude == 0

/-- A key whose order is the total order of the numbers, in which the negative
zero is below the positive one. -/
def orderKey (x : Binary64) : Int :=
  if x.negative then -(x.magnitude : Int) - 1 else x.magnitude

theorem orderKey_inj {x y : Binary64} (h : x.orderKey = y.orderKey) : x = y := by
  obtain ⟨a, m, hm⟩ := x
  obtain ⟨b, n, hn⟩ := y
  cases a <;> cases b <;> simp only [orderKey] at h <;> simp at h ⊢ <;> omega

end Binary64

end DocGraph.Number
