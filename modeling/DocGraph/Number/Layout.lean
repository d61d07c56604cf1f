import DocGraph.Number.Shortest

/-!
# Writing a decimal

A number is written positionally or in scientific notation. Which of the two,
whether an integral value keeps one decimal, and where a tie between two shortest
decimals goes, is up to the format.
-/

namespace DocGraph.Number

/-- What a format decides about the text of a number. -/
structure Layout where
  /-- The scientific exponents that are written positionally; none when all
  are. -/
  positional : Option (Int × Int)
  /-- Whether a positional integral value keeps one decimal. -/
  keepsDecimal : Bool
  /-- Where a tie between two shortest decimals goes. -/
  tie : Tie

/-- The digits with the point after the digit of `10 ^ 0`. -/
def positionalText (digits : List Char) (exponent : Int) (keepsDecimal : Bool) : List Char :=
  let decimals := (-exponent).toNat
  if 0 ≤ exponent then
    digits ++ List.replicate exponent.toNat '0' ++ (if keepsDecimal then ['.', '0'] else [])
  else if decimals < digits.length then
    digits.take (digits.length - decimals) ++ '.' :: digits.drop (digits.length - decimals)
  else '0' :: '.' :: (List.replicate (decimals - digits.length) '0' ++ digits)

/-- One digit before the point, no trailing zeros, and an exponent that always
has a sign. -/
def scientificText (digits : List Char) (exponent : Int) : List Char :=
  let sign := if exponent < 0 then '-' else '+'
  let mark := 'e' :: sign :: Nat.toDigits 10 exponent.natAbs
  match digits with
  | [] => mark
  | [d] => d :: mark
  | d :: ds => d :: '.' :: ds ++ mark

/-- The shortest text of a number that reads back, in a given layout. -/
def Layout.text (layout : Layout) (x : Binary64) : String :=
  let d := shortest layout.tie x
  let body :=
    match layout.positional with
    | none => positionalText d.text d.exponent layout.keepsDecimal
    | some (least, most) =>
      if least ≤ d.scientific ∧ d.scientific ≤ most then
        positionalText d.text d.exponent layout.keepsDecimal
      else scientificText d.text d.scientific
  String.ofList (if x.negative then '-' :: body else body)

end DocGraph.Number
