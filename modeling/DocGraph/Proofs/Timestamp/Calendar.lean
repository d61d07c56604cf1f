import DocGraph.Timestamp.Calendar
import Mathlib.Data.Int.Order.Basic
import Mathlib.Data.Nat.Basic
import Mathlib.Order.Compare
import Mathlib.Order.Lattice

/-!
# Dates and day numbers

The year and the month that are found for a day are the ones it is in, so the date
of a day number is a date of its year (`isOfYear_ofDayNumber`), and its day number is
that number again (`dayNumber_ofDayNumber`). Day numbers are in the order of the years,
the months and the days (`compare_dayNumber`), so no two dates have the same one, and a
date is that of its day number (`ofDayNumber_dayNumber`).
-/

namespace DocGraph

/-- What is ordered by one part first, and by the rest where that is the same. -/
theorem compare_eq_then {α β : Type} [LinearOrder α] [LinearOrder β] {i j : α} {a b : β}
    {rest : Ordering} (hlt : i < j → a < b) (hgt : j < i → b < a)
    (heq : i = j → compare a b = rest) : compare a b = (compare i j).then rest := by
  rcases lt_trichotomy i j with h | h | h
  · rw [compare_lt_iff_lt.mpr h, compare_lt_iff_lt.mpr (hlt h), Ordering.lt_then]
  · rw [compare_eq_iff_eq.mpr h, heq h, Ordering.eq_then]
  · rw [compare_gt_iff_gt.mpr h, compare_gt_iff_gt.mpr (hgt h), Ordering.gt_then]

/-- What is ordered like something else. -/
theorem compare_congr {α β : Type} [LinearOrder α] [LinearOrder β] {i j : α} {a b : β}
    (hlt : i < j → a < b) (hgt : j < i → b < a) (heq : i = j → a = b) :
    compare a b = compare i j := by
  rw [compare_eq_then hlt hgt fun h => compare_eq_iff_eq.mpr (heq h), Ordering.then_eq]

namespace Date

/-- The days of a year. -/
theorem daysBeforeYear_succ (year : Int) :
    daysBeforeYear (year + 1) = daysBeforeYear year + 365 + if isLeapYear year then 1 else 0 := by
  have hleap : isLeapYear year = true ↔ year % 4 = 0 ∧ (year % 100 ≠ 0 ∨ year % 400 = 0) := by
    simp [isLeapYear]
  unfold daysBeforeYear
  split
  · next h =>
    rw [hleap] at h
    omega
  · next h =>
    rw [hleap] at h
    omega

/-- The year that is found for a day is the one it is in. -/
theorem yearOfDay_spec (n : Int) :
    daysBeforeYear (yearOfDay n) ≤ n ∧ n < daysBeforeYear (yearOfDay n + 1) := by
  unfold yearOfDay
  dsimp only
  split
  · next h =>
    rw [Int.sub_add_cancel]
    refine ⟨?_, h⟩
    unfold daysBeforeYear
    omega
  · split
    · next h =>
      refine ⟨h, ?_⟩
      unfold daysBeforeYear
      omega
    · omega

/-- The days of a year before a month and after it. -/
theorem daysBeforeMonth_succ (year : Int) {month : Nat} (h₁ : 1 ≤ month) (h₂ : month ≤ 11) :
    daysBeforeMonth year (month + 1) = daysBeforeMonth year month + daysInMonth year month := by
  have hmonth : month = 1 ∨ month = 2 ∨ month = 3 ∨ month = 4 ∨ month = 5 ∨ month = 6 ∨
      month = 7 ∨ month = 8 ∨ month = 9 ∨ month = 10 ∨ month = 11 := by omega
  unfold daysBeforeMonth daysInMonth
  rcases hmonth with rfl | rfl | rfl | rfl | rfl | rfl | rfl | rfl | rfl | rfl | rfl <;>
    cases isLeapYear year <;> rfl

theorem daysInMonth_le (year : Int) (month : Nat) : daysInMonth year month ≤ 31 := by
  unfold daysInMonth
  split
  · split <;> decide
  all_goals decide

theorem daysBeforeMonth_december (year : Int) :
    daysBeforeMonth year 12 + daysInMonth year 12 = 365 + if isLeapYear year then 1 else 0 := by
  unfold daysBeforeMonth daysInMonth
  cases isLeapYear year <;> rfl

theorem monthOfDay_eq (year n : Int) :
    monthOfDay year n =
      if n < daysBeforeMonth year 2 then 1
      else if n < daysBeforeMonth year 3 then 2
      else if n < daysBeforeMonth year 4 then 3
      else if n < daysBeforeMonth year 5 then 4
      else if n < daysBeforeMonth year 6 then 5
      else if n < daysBeforeMonth year 7 then 6
      else if n < daysBeforeMonth year 8 then 7
      else if n < daysBeforeMonth year 9 then 8
      else if n < daysBeforeMonth year 10 then 9
      else if n < daysBeforeMonth year 11 then 10
      else if n < daysBeforeMonth year 12 then 11
      else 12 :=
  rfl

/-- Whether the `n`-th day of a year is in a month. -/
structure IsInMonth (year n : Int) (month : Nat) : Prop where
  one_le : 1 ≤ month
  le_twelve : month ≤ 12
  before_le : daysBeforeMonth year month ≤ n
  lt_after : n < daysBeforeMonth year month + daysInMonth year month

/-- A day from a month on is in it, or from the next month on. -/
theorem isInMonth_ite {year n : Int} {m later : Nat} (hm : 1 ≤ m ∧ m ≤ 11)
    (hlow : daysBeforeMonth year m ≤ n)
    (hlater : daysBeforeMonth year (m + 1) ≤ n → IsInMonth year n later) :
    IsInMonth year n (if n < daysBeforeMonth year (m + 1) then m else later) := by
  split
  · next h =>
    rw [daysBeforeMonth_succ year hm.1 hm.2] at h
    exact ⟨hm.1, Nat.le_succ_of_le hm.2, hlow, h⟩
  · next h => exact hlater (Int.not_lt.mp h)

/-- The month that is found for a day of a year is the one it is in. -/
theorem isInMonth_monthOfDay {year n : Int} (h₀ : 0 ≤ n)
    (h₁ : n < 365 + if isLeapYear year then 1 else 0) :
    IsInMonth year n (monthOfDay year n) := by
  rw [← daysBeforeMonth_december] at h₁
  rw [monthOfDay_eq]
  refine isInMonth_ite (m := 1) (by decide) h₀ fun h => ?_
  refine isInMonth_ite (m := 2) (by decide) h fun h => ?_
  refine isInMonth_ite (m := 3) (by decide) h fun h => ?_
  refine isInMonth_ite (m := 4) (by decide) h fun h => ?_
  refine isInMonth_ite (m := 5) (by decide) h fun h => ?_
  refine isInMonth_ite (m := 6) (by decide) h fun h => ?_
  refine isInMonth_ite (m := 7) (by decide) h fun h => ?_
  refine isInMonth_ite (m := 8) (by decide) h fun h => ?_
  refine isInMonth_ite (m := 9) (by decide) h fun h => ?_
  refine isInMonth_ite (m := 10) (by decide) h fun h => ?_
  refine isInMonth_ite (m := 11) (by decide) h fun h => ?_
  exact ⟨by decide, by decide, h, h₁⟩

/-- The day of the year of a day is one of its year. -/
theorem dayOfYear_spec (n : Int) :
    0 ≤ n - daysBeforeYear (yearOfDay n) ∧
      n - daysBeforeYear (yearOfDay n) < 365 + if isLeapYear (yearOfDay n) then 1 else 0 := by
  obtain ⟨hlow, hhigh⟩ := yearOfDay_spec n
  rw [daysBeforeYear_succ] at hhigh
  omega

/-- Whether the month and the day of a date are those of its year, which may be any. -/
structure IsOfYear (d : Date) : Prop where
  one_le_month : 1 ≤ d.month
  month_le : d.month ≤ 12
  one_le_day : 1 ≤ d.day
  day_le : d.day ≤ daysInMonth d.year d.month

theorem isYear_iff {year : Int} : isYear year = true ↔ -9999 ≤ year ∧ year ≤ 9999 := by
  rw [isYear, Bool.and_eq_true, decide_eq_true_eq, decide_eq_true_eq]

theorem isValid_iff {d : Date} : d.isValid = true ↔ isYear d.year = true ∧ d.IsOfYear := by
  simp only [isValid, Bool.and_eq_true, decide_eq_true_eq]
  exact ⟨fun ⟨⟨⟨⟨hyear, h₁⟩, h₂⟩, h₃⟩, h₄⟩ => ⟨hyear, h₁, h₂, h₃, h₄⟩,
    fun ⟨hyear, h₁, h₂, h₃, h₄⟩ => ⟨⟨⟨⟨hyear, h₁⟩, h₂⟩, h₃⟩, h₄⟩⟩

/-- The date of a day number has that day number. -/
theorem dayNumber_ofDayNumber (n : Int) : (ofDayNumber n).dayNumber = n := by
  obtain ⟨hlow, hhigh⟩ := dayOfYear_spec (n + epochDay)
  have hbefore := (isInMonth_monthOfDay hlow hhigh).before_le
  unfold dayNumber ofDayNumber
  dsimp only
  omega

/-- The date of a day number is one of its year. -/
theorem isOfYear_ofDayNumber (n : Int) : (ofDayNumber n).IsOfYear := by
  obtain ⟨hlow, hhigh⟩ := dayOfYear_spec (n + epochDay)
  obtain ⟨hone, htwelve, hbefore, hafter⟩ := isInMonth_monthOfDay hlow hhigh
  refine ⟨hone, htwelve, Nat.le_add_left _ _, ?_⟩
  unfold ofDayNumber
  dsimp only
  omega

/-! ## The order of dates -/

/-- A year ends before a later one begins. -/
theorem daysBeforeYear_succ_le {year later : Int} (h : year < later) :
    daysBeforeYear (year + 1) ≤ daysBeforeYear later := by
  unfold daysBeforeYear
  omega

/-- A month ends before a later one begins. -/
theorem daysBeforeMonth_add_le (year : Int) {month later : Nat} (hmonth : 1 ≤ month)
    (h : month < later) (hlater : later ≤ 12) :
    daysBeforeMonth year month + daysInMonth year month ≤ daysBeforeMonth year later := by
  induction later, h using Nat.le_induction with
  | base => rw [daysBeforeMonth_succ year hmonth (by omega)]
  | succ later hle ih =>
    have hbefore := ih (by omega)
    rw [daysBeforeMonth_succ year (by omega) (by omega)]
    omega

variable {d e : Date}

/-- The month of a date lies in its year. -/
theorem IsOfYear.month_bounds (h : d.IsOfYear) : 0 ≤ daysBeforeMonth d.year d.month ∧
    daysBeforeMonth d.year d.month + daysInMonth d.year d.month ≤
      365 + if isLeapYear d.year then 1 else 0 := by
  have hjanuary : daysBeforeMonth d.year 1 = 0 := rfl
  have hdecember := daysBeforeMonth_december d.year
  obtain ⟨hone, htwelve, -, -⟩ := h
  constructor
  · rcases hone.eq_or_lt with heq | hlt
    · rw [← heq, hjanuary]
    · have := daysBeforeMonth_add_le d.year (by decide) hlt htwelve
      omega
  · rcases htwelve.eq_or_lt with heq | hlt
    · rw [heq, hdecember]
    · have := daysBeforeMonth_add_le d.year hone hlt (by decide)
      omega

/-- A date lies in its year. -/
theorem IsOfYear.year_bounds (h : d.IsOfYear) : daysBeforeYear d.year ≤ d.dayNumber + epochDay ∧
    d.dayNumber + epochDay < daysBeforeYear (d.year + 1) := by
  obtain ⟨hbefore, hafter⟩ := h.month_bounds
  have hone := h.one_le_day
  have hday := h.day_le
  rw [daysBeforeYear_succ]
  unfold dayNumber
  omega

/-- Day numbers are in the order of the years, in that of the months in one year, and in
that of the days in one month. -/
theorem compare_dayNumber (hd : d.IsOfYear) (he : e.IsOfYear) :
    compare d.dayNumber e.dayNumber =
      (compare d.year e.year).then ((compare d.month e.month).then (compare d.day e.day)) := by
  have hbounds := hd.year_bounds
  have hbounds' := he.year_bounds
  refine compare_eq_then (fun hlt => ?_) (fun hgt => ?_) fun hyear => ?_
  · have := daysBeforeYear_succ_le hlt
    omega
  · have := daysBeforeYear_succ_le hgt
    omega
  have hday := hd.day_le
  have hday' := he.day_le
  have hone := hd.one_le_day
  have hone' := he.one_le_day
  unfold dayNumber
  rw [← hyear] at hday' ⊢
  refine compare_eq_then (fun hlt => ?_) (fun hgt => ?_) fun hmonth => ?_
  · have := daysBeforeMonth_add_le d.year hd.one_le_month hlt he.month_le
    omega
  · have := daysBeforeMonth_add_le d.year he.one_le_month hgt hd.month_le
    omega
  · rw [hmonth]
    exact compare_congr (fun hlt => by omega) (fun hgt => by omega) fun heq => by rw [heq]

theorem dayNumber_inj (hd : d.IsOfYear) (he : e.IsOfYear) (h : d.dayNumber = e.dayNumber) :
    d = e := by
  have hcompare := compare_dayNumber hd he
  rw [compare_eq_iff_eq.mpr h, eq_comm, Ordering.then_eq_eq, Ordering.then_eq_eq] at hcompare
  simp only [compare_eq_iff_eq] at hcompare
  obtain ⟨year, month, day⟩ := d
  obtain ⟨rfl, rfl, rfl⟩ := hcompare
  rfl

/-- A date is that of its day number. -/
theorem ofDayNumber_dayNumber (h : d.IsOfYear) : ofDayNumber d.dayNumber = d :=
  dayNumber_inj (isOfYear_ofDayNumber _) h (dayNumber_ofDayNumber _)

end Date

end DocGraph
