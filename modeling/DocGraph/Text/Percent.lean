/-!
# Percent-encoding

Every byte of the UTF-8 form of a text that is not an unreserved ASCII
character is written as `%` and two upper case hexadecimal digits. Decoding is
lenient: a `%` that no two hexadecimal digits follow stands for itself, and only
bytes that are no UTF-8 make it fail.
-/

namespace DocGraph.Text.Percent

/-- The characters that are written as themselves. -/
def isUnreserved (c : Char) : Bool :=
  ('A' ≤ c && c ≤ 'Z') || ('a' ≤ c && c ≤ 'z') || ('0' ≤ c && c ≤ '9') ||
    c == '-' || c == '.' || c == '_' || c == '~'

/-- The upper case hexadecimal digit of a number below 16. -/
def hexDigit (n : Nat) : Char :=
  if n < 10 then Char.ofNat (48 + n) else Char.ofNat (55 + n)

/-- The value of a hexadecimal digit of either case. -/
def hexValue? (c : Char) : Option Nat :=
  if '0' ≤ c ∧ c ≤ '9' then some (c.toNat - 48)
  else if 'A' ≤ c ∧ c ≤ 'F' then some (c.toNat - 55)
  else if 'a' ≤ c ∧ c ≤ 'f' then some (c.toNat - 87)
  else none

/-- The value of two hexadecimal digits as one byte. -/
def byte? (high low : Char) : Option UInt8 := do
  let h ← hexValue? high
  let l ← hexValue? low
  return UInt8.ofNat (16 * h + l)

/-- The escape of one byte. -/
def escape (b : UInt8) : List Char :=
  ['%', hexDigit (b.toNat / 16), hexDigit (b.toNat % 16)]

/-- The written form of one character. -/
def encodeChar (c : Char) : List Char :=
  if isUnreserved c then [c] else (String.utf8EncodeChar c).flatMap escape

/-- The percent-encoded form of a text. -/
def encode (s : String) : String :=
  String.ofList (s.toList.flatMap encodeChar)

/-- The bytes that a percent-encoded text stands for. -/
def bytes : List Char → List UInt8
  | [] => []
  | '%' :: h :: l :: rest =>
    match byte? h l with
    | some b => b :: bytes rest
    | none => String.utf8EncodeChar '%' ++ bytes (h :: l :: rest)
  | c :: rest => String.utf8EncodeChar c ++ bytes rest

/-- The text that a percent-encoded text stands for; none when its bytes are no
UTF-8. -/
def decode? (s : String) : Option String :=
  String.fromUTF8? (ByteArray.mk (bytes s.toList).toArray)

end DocGraph.Text.Percent
