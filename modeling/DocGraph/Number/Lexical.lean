import DocGraph.Number.Binary64

/-!
# Reading numbers from plain text

The lexical forms that values of a store come in: integers with an optional
sign, and decimals with an optional point and an optional exponent. A decimal is
rounded once, to the nearest number.
-/

namespace DocGraph.Number

/-- Whether a character is an ASCII digit. -/
def isDigit (c : Char) : Bool :=
  '0' ≤ c && c ≤ '9'

/-- The value of a list of digits, the most significant first. -/
def ofDigits (cs : List Char) : Nat :=
  cs.foldl (fun n c => 10 * n + (c.toNat - 48)) 0

/-- The value of a text of one or more digits. -/
def natural? (cs : List Char) : Option Nat :=
  if cs ≠ [] ∧ cs.all isDigit then some (ofDigits cs) else none

/-- A sign that is taken off, and whether it was a minus. -/
def takeSign : List Char → Bool × List Char
  | '+' :: cs => (false, cs)
  | '-' :: cs => (true, cs)
  | cs => (false, cs)

/-- An integer with an optional sign. -/
def integer? (cs : List Char) : Option Int :=
  let (negative, rest) := takeSign cs
  (natural? rest).map fun n => if negative then -(n : Int) else n

/-- A natural number with an optional plus sign. -/
def unsigned? : List Char → Option Nat
  | '+' :: cs => natural? cs
  | cs => natural? cs

/-- The number nearest to `digits · 10 ^ exponent`; none when it is too large.
Outside the range in which a number of so many digits is finite and not zero
the powers of ten are not computed. -/
def ofDecimal? (negative : Bool) (digits : Nat) (exponent : Int) : Option Binary64 :=
  let size : Int := (Nat.toDigits 10 digits).length
  if digits = 0 ∨ exponent + size < -400 then some (.zero negative)
  else if 400 < exponent + size then none
  else
    Binary64.ofRatio? negative (digits * Nat.pow 10 exponent.toNat)
      (Nat.pow 10 (-exponent).toNat)

/-- The exponent part of a decimal: nothing, or a mark and an integer. -/
def exponent? : List Char → Option Int
  | [] => some 0
  | c :: cs => if c = 'e' ∨ c = 'E' then integer? cs else none

/-- A finite decimal: digits with an optional point, at least one digit, and an
optional exponent. -/
def decimal? (cs : List Char) : Option Binary64 :=
  let (negative, rest) := takeSign cs
  let whole := rest.takeWhile isDigit
  let rest := rest.dropWhile isDigit
  let (fraction, rest) :=
    match rest with
    | '.' :: more => (more.takeWhile isDigit, more.dropWhile isDigit)
    | _ => ([], rest)
  if whole = [] ∧ fraction = [] then none
  else do
    let exponent ← exponent? rest
    ofDecimal? negative (ofDigits (whole ++ fraction)) (exponent - (fraction.length : Int))

end DocGraph.Number
