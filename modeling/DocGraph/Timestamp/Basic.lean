import DocGraph.Timestamp.Calendar

/-!
# Timestamps

An instant, in nanoseconds since 1970-01-01T00:00:00Z, and the offset from UTC
that it was written with. The canonical text is in UTC with three decimals, and
exists for the instants whose UTC year is one of the calendar.
-/

namespace DocGraph

/-- An instant and the offset it was written with. -/
structure Timestamp where
  /-- Nanoseconds since 1970-01-01T00:00:00Z. -/
  nanos : Int
  /-- Seconds that the written time is ahead of UTC. -/
  offset : Int
  deriving DecidableEq

namespace Timestamp

/-- The nanoseconds of a second. -/
def nanosPerSecond : Int := 1000000000

/-- The nanoseconds of a day. -/
def nanosPerDay : Int := 86400 * nanosPerSecond

/-- The timestamp of a date, the nanoseconds since its midnight and an
offset. -/
def ofLocal (date : Date) (nanosOfDay offset : Int) : Timestamp :=
  ⟨date.dayNumber * nanosPerDay + nanosOfDay - offset * nanosPerSecond, offset⟩

/-- The date in UTC. -/
def utcDate (t : Timestamp) : Date :=
  Date.ofDayNumber (t.nanos / nanosPerDay)

/-- The nanoseconds since midnight in UTC. -/
def utcNanosOfDay (t : Timestamp) : Int :=
  t.nanos % nanosPerDay

/-- A number with leading zeros up to a width. -/
def padded (width : Nat) (n : Nat) : List Char :=
  let digits := Nat.toDigits 10 n
  List.replicate (width - digits.length) '0' ++ digits

/-- A year with leading zeros up to four characters, of which the sign is
one. -/
def yearText (year : Int) : List Char :=
  if year < 0 then '-' :: padded 3 year.natAbs else padded 4 year.toNat

/-- The text `YYYY-MM-DDThh:mm:ss.mmmZ` of a date and the milliseconds since its
midnight. -/
def textOf (d : Date) (millis : Nat) : List Char :=
  yearText d.year ++ '-' :: padded 2 d.month ++ '-' :: padded 2 d.day ++ 'T' ::
    padded 2 (millis / 3600000) ++ ':' :: padded 2 (millis / 60000 % 60) ++ ':' ::
    padded 2 (millis / 1000 % 60) ++ '.' :: padded 3 (millis % 1000) ++ ['Z']

/-- The canonical text, in UTC and without what is below a millisecond; none
when the UTC year is not one of the calendar. -/
def text? (t : Timestamp) : Option String :=
  let d := t.utcDate
  if Date.isYear d.year then
    some (String.ofList (textOf d (t.utcNanosOfDay / 1000000).toNat))
  else none

end Timestamp

end DocGraph
