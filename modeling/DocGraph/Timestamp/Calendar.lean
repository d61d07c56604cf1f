/-!
# The proleptic Gregorian calendar

Dates and the number of days between them. Days are counted from 1970-01-01;
`ofDayNumber` finds the year from an estimate that is off by at most one.
-/

namespace DocGraph

/-- A date. -/
structure Date where
  year : Int
  month : Nat
  day : Nat
  deriving DecidableEq

namespace Date

/-- Whether a year has a 29th of February. -/
def isLeapYear (year : Int) : Bool :=
  year % 4 == 0 && (year % 100 != 0 || year % 400 == 0)

/-- The number of days of a month. -/
def daysInMonth (year : Int) (month : Nat) : Nat :=
  match month with
  | 2 => if isLeapYear year then 29 else 28
  | 4 | 6 | 9 | 11 => 30
  | _ => 31

/-- The days from the start of year 0 to the start of a year. -/
def daysBeforeYear (year : Int) : Int :=
  365 * year + (year + 3) / 4 - (year + 99) / 100 + (year + 399) / 400

/-- The days of a year before a month. -/
def daysBeforeMonth (year : Int) (month : Nat) : Int :=
  let leap := if isLeapYear year then 1 else 0
  match month with
  | 1 => 0
  | 2 => 31
  | 3 => 59 + leap
  | 4 => 90 + leap
  | 5 => 120 + leap
  | 6 => 151 + leap
  | 7 => 181 + leap
  | 8 => 212 + leap
  | 9 => 243 + leap
  | 10 => 273 + leap
  | 11 => 304 + leap
  | _ => 334 + leap

/-- The days from the start of year 0 to 1970-01-01. -/
def epochDay : Int := 719528

/-- The days from 1970-01-01 to a date. -/
def dayNumber (d : Date) : Int :=
  daysBeforeYear d.year + daysBeforeMonth d.year d.month + (d.day : Int) - 1 - epochDay

/-- The year of the `n`-th day since the start of year 0. -/
def yearOfDay (n : Int) : Int :=
  let estimate := n * 400 / 146097
  if n < daysBeforeYear estimate then estimate - 1
  else if daysBeforeYear (estimate + 1) ≤ n then estimate + 1
  else estimate

/-- The month of the `n`-th day of a year, counted from 0. -/
def monthOfDay (year : Int) (n : Int) : Nat :=
  let leap := if isLeapYear year then 1 else 0
  if n < 31 then 1
  else if n < 59 + leap then 2
  else if n < 90 + leap then 3
  else if n < 120 + leap then 4
  else if n < 151 + leap then 5
  else if n < 181 + leap then 6
  else if n < 212 + leap then 7
  else if n < 243 + leap then 8
  else if n < 273 + leap then 9
  else if n < 304 + leap then 10
  else if n < 334 + leap then 11
  else 12

/-- The date of a day counted from 1970-01-01. -/
def ofDayNumber (n : Int) : Date :=
  let n := n + epochDay
  let year := yearOfDay n
  let n := n - daysBeforeYear year
  let month := monthOfDay year n
  ⟨year, month, (n - daysBeforeMonth year month).toNat + 1⟩

/-- Whether the years of the calendar include a year. -/
def isYear (year : Int) : Bool :=
  -9999 ≤ year && year ≤ 9999

/-- A date of the calendar: the years run from -9999 to 9999. -/
def isValid (d : Date) : Bool :=
  isYear d.year && 1 ≤ d.month && d.month ≤ 12 && 1 ≤ d.day && d.day ≤ daysInMonth d.year d.month

end Date

end DocGraph
