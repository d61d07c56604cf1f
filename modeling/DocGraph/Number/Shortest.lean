import DocGraph.Number.Binary64

/-!
# The shortest decimal that reads back

Every binary64 number is the nearest one to all decimals of an interval around
it. `shortest` gives the decimal of that interval with the fewest digits and, of
those, the one nearest to the number. On the grid of decimals with a given
number of digits only the two neighbours of the number need be looked at: if any
point of the grid is in the interval, one of these two is. Which of two equally
near neighbours is taken is up to the format.
-/

namespace DocGraph.Number

/-- A decimal `digits · 10 ^ exponent`. -/
structure Decimal where
  digits : Nat
  exponent : Int
  deriving DecidableEq, Repr

namespace Decimal

/-- The same decimal without trailing zeros, at most `fuel` of them removed. -/
def stripped : Nat → Decimal → Decimal
  | 0, d => d
  | fuel + 1, d =>
    if d.digits ≠ 0 ∧ d.digits % 10 = 0 then stripped fuel ⟨d.digits / 10, d.exponent + 1⟩ else d

/-- The decimal digits, the most significant first. -/
def text (d : Decimal) : List Char :=
  Nat.toDigits 10 d.digits

/-- The exponent in scientific notation, with one digit before the point. -/
def scientific (d : Decimal) : Int :=
  d.exponent + (d.text.length : Int) - 1

end Decimal

/-- Which of two equally near multiples of a unit is taken. -/
inductive Tie where
  | toEven
  /-- The one of greater absolute value. -/
  | up
  deriving DecidableEq, Repr

/-- Whether a tie between `q` and `q + 1` goes to `q + 1`. -/
def Tie.goesUp : Tie → Nat → Bool
  | .toEven, q => q % 2 = 1
  | .up, _ => true

/-- The interval of the values that round to a number: `low / den` to
`high / den` around `value / den`, with its ends where `closed` holds. -/
structure Interval where
  low : Nat
  value : Nat
  high : Nat
  den : Nat
  closed : Bool

namespace Interval

/-- The interval of a number that is not zero. The gap below the least number
with a given exponent is half the gap above it. -/
def around (x : Binary64) : Interval :=
  let m := x.significand
  let unit := Nat.pow 2 x.scale
  let below := if m = fractions ∧ 0 < x.scale then 1 else 2
  { low := (4 * m - below) * unit
    value := 4 * m * unit
    high := (4 * m + 2) * unit
    den := Nat.pow 2 1076
    closed := m % 2 = 0 }

/-- Whether `num / den` lies in the interval, where `den` is the interval's. -/
def covers (i : Interval) (num : Nat) : Bool :=
  if i.closed then i.low ≤ num && num ≤ i.high else i.low < num && num < i.high

/-- The interval measured in units of `10 ^ k`. -/
def inUnits (i : Interval) (k : Int) : Interval :=
  let up := Nat.pow 10 (-k).toNat
  let down := Nat.pow 10 k.toNat
  { i with low := i.low * up, value := i.value * up, high := i.high * up, den := i.den * down }

/-- The multiple of the unit in the interval that is nearest to its value, of
the two neighbours of the value. -/
def neighbour? (i : Interval) (tie : Tie) : Option Nat :=
  let q := i.value / i.den
  let twiceRest := 2 * (i.value % i.den)
  let prefersAbove := i.den < twiceRest || (twiceRest = i.den && tie.goesUp q)
  let below := i.covers (q * i.den)
  let above := i.covers ((q + 1) * i.den)
  if above && (!below || prefersAbove) then some (q + 1)
  else if below then some q
  else none

end Interval

/-- The exponent `k` with `10 ^ k ≤ num / den < 10 ^ (k + 1)`, from a first
guess that is off by at most `fuel`. -/
def decimalExponent : Nat → Nat → Nat → Int → Int
  | 0, _, _, k => k
  | fuel + 1, num, den, k =>
    if num * Nat.pow 10 (-k).toNat < den * Nat.pow 10 k.toNat then
      decimalExponent fuel num den (k - 1)
    else if den * Nat.pow 10 (k + 1).toNat ≤ num * Nat.pow 10 (-(k + 1)).toNat then
      decimalExponent fuel num den (k + 1)
    else k

/-- A first guess of the decimal exponent, from the binary one. -/
def guessedExponent (num den : Nat) : Int :=
  ((num.log2 : Int) - (den.log2 : Int)) * 30103 / 100000

/-- The first hit on the grids of `n`, `n + 1`, … digits, `fuel` of them. -/
def firstHit (i : Interval) (k : Int) (tie : Tie) : Nat → Nat → Option Decimal
  | 0, _ => none
  | fuel + 1, n =>
    let unit := k + 1 - (n : Int)
    match (i.inUnits unit).neighbour? tie with
    | some q => some ⟨q, unit⟩
    | none => firstHit i k tie fuel (n + 1)

/-- The shortest decimal that reads back as the absolute value of a number.
Seventeen digits always do. -/
def shortest (tie : Tie) (x : Binary64) : Decimal :=
  if x.magnitude = 0 then ⟨0, 0⟩
  else
    let i := Interval.around x
    let k := decimalExponent 4 i.value i.den (guessedExponent i.value i.den)
    ((firstHit i k tie 17 1).getD ⟨0, 0⟩).stripped 20

end DocGraph.Number
