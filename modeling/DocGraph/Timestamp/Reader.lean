import DocGraph.Json.Value
import DocGraph.Text.Blank
import DocGraph.Timestamp.Basic

/-!
# Reading timestamps

A date value is a number of milliseconds since 1970, a timestamp of RFC 3339, a
timestamp without an offset, which is read as UTC, or a plain date, which is
read as its midnight in UTC.
-/

namespace DocGraph.Timestamp

open DocGraph.Number (isDigit natural? unsigned?)

/-- The nanoseconds that the first nine decimals of a second stand for. -/
def fractionNanos (digits : List Char) : Nat :=
  let nine := digits.take 9
  Number.ofDigits nine * Nat.pow 10 (9 - nine.length)

/-- The decimals after the seconds, if there are any, and what follows them. -/
def fraction? : List Char → Option (Nat × List Char)
  | '.' :: rest =>
    let digits := rest.takeWhile isDigit
    if digits = [] then none else some (fractionNanos digits, rest.dropWhile isDigit)
  | cs => some (0, cs)

/-- An offset from UTC in seconds: `Z`, or a sign, hours and minutes. -/
def offset? : List Char → Option Int
  | [c] => if c = 'Z' ∨ c = 'z' then some 0 else none
  | [sign, h, h', ':', m, m'] => do
    let hours ← natural? [h, h']
    let minutes ← natural? [m, m']
    let seconds : Int := hours * 3600 + minutes * 60
    if 23 < hours ∨ 59 < minutes then none
    else if sign = '+' then some seconds
    else if sign = '-' then some (-seconds)
    else none
  | _ => none

/-- Whether an instant may stand for a leap second: the last nanosecond of a
month in UTC. -/
def endsMonth (t : Timestamp) : Bool :=
  let d := t.utcDate
  t.utcNanosOfDay == nanosPerDay - 1 && Date.isYear d.year &&
    d.day == Date.daysInMonth d.year d.month

/-- The timestamp of a date, a time of day and an offset. The second 60 is the
last nanosecond before it, at the end of a month only. -/
def ofParts? (date : Date) (hour minute second nanos : Nat) (offset : Int) : Option Timestamp :=
  if ¬ date.isValid ∨ 23 < hour ∨ 59 < minute ∨ 60 < second then none
  else
    let seconds : Int := hour * 3600 + minute * 60
    if second = 60 then
      let t := ofLocal date ((seconds + 60) * nanosPerSecond - 1) offset
      if t.endsMonth then some t else none
    else some (ofLocal date ((seconds + second) * nanosPerSecond + nanos) offset)

/-- A timestamp of RFC 3339. Any ASCII character may separate date and time. -/
def rfc3339? : List Char → Option Timestamp
  | y :: y' :: y'' :: y''' :: '-' :: m :: m' :: '-' :: d :: d' :: separator ::
      h :: h' :: ':' :: n :: n' :: ':' :: s :: s' :: rest => do
    let year ← natural? [y, y', y'', y''']
    let month ← natural? [m, m']
    let day ← natural? [d, d']
    let hour ← natural? [h, h']
    let minute ← natural? [n, n']
    let second ← natural? [s, s']
    let (nanos, rest) ← fraction? rest
    let offset ← offset? rest
    if separator.toNat < 0x80 then ofParts? ⟨year, month, day⟩ hour minute second nanos offset
    else none
  | _ => none

/-- The text before the first hyphen and after it. -/
def atHyphen? (cs : List Char) : Option (List Char × List Char) :=
  match cs.dropWhile (· != '-') with
  | _ :: rest => some (cs.takeWhile (· != '-'), rest)
  | [] => none

/-- A plain date. Its three parts are unsigned numbers of any width. -/
def plainDate? (cs : List Char) : Option Timestamp := do
  let (year, rest) ← atHyphen? cs
  let (month, day) ← atHyphen? rest
  let date : Date := ⟨← unsigned? year, ← unsigned? month, ← unsigned? day⟩
  if date.isValid then some (ofLocal date 0 0) else none

/-- A timestamp in any of the written forms. -/
def ofText? (cs : List Char) : Option Timestamp :=
  match rfc3339? cs with
  | some t => some t
  | none => if 'T' ∈ cs then rfc3339? (cs ++ ['Z']) else plainDate? cs

/-- The timestamp of a number of milliseconds since 1970, if its year is one of
the calendar. -/
def ofMillis? (millis : Int) : Option Timestamp :=
  let t : Timestamp := ⟨millis * 1000000, 0⟩
  if Date.isYear t.utcDate.year then some t else none

/-- The timestamp that a document value stands for. -/
def ofValue? : Json.Value → Option Timestamp
  | .num n => n.signed?.bind ofMillis?
  | .str s => ofText? (Text.trimmed s)
  | _ => none

end DocGraph.Timestamp
