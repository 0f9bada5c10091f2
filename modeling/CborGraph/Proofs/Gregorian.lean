import CborGraph.Calendar
import Mathlib.Tactic.SplitIfs

/-!
# Days and their numbers

A day is found again from its number: `Day.isDate_ofNumber`, `Day.number_ofNumber`. That the numbers
are those of the proleptic Gregorian calendar is said by `Day.number_next`, in which the length of a
month is all that is known of the calendar: the day after a date has the next number, and the first of
January 1970 has number zero.

Years are counted from March here, as in the definitions, and `yearStart` is the day of an era on which
a year begins.
-/

namespace CborGraph.Calendar

/-! ### Years of an era -/

/-- How many days of an era come before a year of the era. -/
def yearStart (y : Int) : Int := y * 365 + y / 4 - y / 100

/-- The year of an era is the one in which the day lies; the last year has a day more. -/
theorem yearOfEra_spec {dayOfEra : Int} (h₀ : 0 ≤ dayOfEra) (h₁ : dayOfEra < 146097) :
    let y := (dayOfEra - dayOfEra / 1460 + dayOfEra / 36524 - dayOfEra / 146096) / 365
    0 ≤ y ∧ y < 400 ∧ yearStart y ≤ dayOfEra ∧ dayOfEra < yearStart (y + 1) + (y + 1) / 400 := by
  intro y
  have hcentury : dayOfEra / 36524 = 0 ∨ dayOfEra / 36524 = 1 ∨ dayOfEra / 36524 = 2 ∨
      dayOfEra / 36524 = 3 ∨ dayOfEra / 36524 = 4 := by omega
  refine ⟨by omega, by omega, ?_, ?_⟩
  -- Days are counted by fours of years less a day, so a day may seem to lie in the next four.
  · have hfour : dayOfEra / 1460 < y / 4 ∨ y / 4 ≤ dayOfEra / 1460 := by omega
    rw [yearStart]
    rcases hcentury with hc | hc | hc | hc | hc <;> rcases hfour with hf | hf <;> omega
  · have hfour : dayOfEra / 1460 ≤ (y + 1) / 4 ∨ (y + 1) / 4 < dayOfEra / 1460 := by omega
    have hnext : (y + 1) / 100 ≤ dayOfEra / 36524 ∨ dayOfEra / 36524 < (y + 1) / 100 := by omega
    rw [yearStart]
    rcases hcentury with hc | hc | hc | hc | hc <;> rcases hfour with hf | hf <;>
      rcases hnext with hn | hn <;> omega

/-- How many days a year of an era has; it ends with a February. -/
def yearLength (y : Int) : Int := yearStart (y + 1) + (y + 1) / 400 - yearStart y

/-- A year that begins in March has a leap day if the year in which it ends is a leap year. -/
theorem yearLength_eq {y : Int} (h₀ : 0 ≤ y) (h₁ : y < 400) (era : Int) :
    yearLength y = if isLeap (era * 400 + y + 1) then 366 else 365 := by
  have hleap : isLeap (era * 400 + y + 1) = true ↔
      (y + 1) % 4 = 0 ∧ ((y + 1) % 100 ≠ 0 ∨ (y + 1) % 400 = 0) := by
    simp only [isLeap, Bool.and_eq_true, Bool.or_eq_true, beq_iff_eq, bne_iff_ne]
    omega
  simp only [hleap, yearLength, yearStart]
  split <;> omega

/-- How many days of a year come before a month of it. -/
def monthStart (m : Int) : Int := (153 * m + 2) / 5

/-- A day of a year of an era by its month and its place in the month, both from zero. -/
def fromMarch (era y m k : Int) : Day :=
  ⟨if m < 10 then era * 400 + y else era * 400 + y + 1, (if m < 10 then m + 3 else m - 9).toNat,
    (k + 1).toNat⟩

/-- A year of an era, a month of the year and a day of the month that exist together. -/
structure InMarchYear (y m k : Int) : Prop where
  y_nonneg : 0 ≤ y
  y_lt : y < 400
  m_nonneg : 0 ≤ m
  m_lt : m < 12
  k_nonneg : 0 ≤ k
  k_lt : monthStart m + k < monthStart (m + 1)
  lt_length : monthStart m + k < yearLength y

/-- Every number is that of a day of a year that begins in March. -/
theorem exists_fromMarch (n : Int) :
    ∃ era y m k : Int, InMarchYear y m k ∧
      n = era * 146097 + yearStart y + monthStart m + k - 719468 ∧
      Day.ofNumber n = fromMarch era y m k := by
  have h₀ := Int.emod_nonneg (n + 719468) (by decide : (146097 : Int) ≠ 0)
  have h₁ := Int.emod_lt_of_pos (n + 719468) (by decide : (0 : Int) < 146097)
  have hsplit := Int.mul_ediv_add_emod (n + 719468) 146097
  obtain ⟨hy₀, hy₁, hstart, hend⟩ := yearOfEra_spec h₀ h₁
  rw [Day.ofNumber]
  generalize (n + 719468) % 146097 = dayOfEra at *
  generalize (n + 719468) / 146097 = era at *
  generalize (dayOfEra - dayOfEra / 1460 + dayOfEra / 36524 - dayOfEra / 146096) / 365 = y at *
  obtain ⟨dayOfYear, hday⟩ : ∃ d, dayOfEra = yearStart y + d := ⟨dayOfEra - yearStart y, by omega⟩
  have hlength : yearLength y ≤ 366 := by
    rw [yearLength_eq hy₀ hy₁ 0]
    split <;> omega
  have hyear : dayOfEra - (365 * y + y / 4 - y / 100) = dayOfYear := by
    rw [hday, yearStart]
    omega
  rw [hyear]
  rw [yearLength] at hlength
  refine ⟨era, y, (5 * dayOfYear + 2) / 153, dayOfYear - monthStart ((5 * dayOfYear + 2) / 153),
    ⟨hy₀, hy₁, ?_, ?_, ?_, ?_, ?_⟩, ?_, ?_⟩
  · omega
  · omega
  · rw [monthStart]
    omega
  · simp only [monthStart]
    omega
  · rw [yearLength]
    omega
  · omega
  · have hmonth : (if (if (5 * dayOfYear + 2) / 153 < 10 then (5 * dayOfYear + 2) / 153 + 3
        else (5 * dayOfYear + 2) / 153 - 9) ≤ 2 then era * 400 + y + 1 else era * 400 + y) =
        if (5 * dayOfYear + 2) / 153 < 10 then era * 400 + y else era * 400 + y + 1 := by
      split_ifs <;> omega
    rw [fromMarch, monthStart, hmonth]

/-! ### Months -/

theorem daysInMonth_le (year : Int) (month : Nat) : daysInMonth year month ≤ 31 := by
  unfold daysInMonth
  split
  · split <;> decide
  all_goals decide

/-- A month other than February reaches to the start of the next, counted from March. -/
theorem daysInMonth_eq (year : Int) {month : Nat} (h₀ : 1 ≤ month) (h₁ : month ≤ 12) (h₂ : month ≠ 2) :
    (daysInMonth year month : Int) =
      monthStart (((month + 9) % 12 : Nat) + 1) - monthStart ((month + 9) % 12 : Nat) := by
  have hmonths : month = 1 ∨ month = 3 ∨ month = 4 ∨ month = 5 ∨ month = 6 ∨ month = 7 ∨ month = 8 ∨
    month = 9 ∨ month = 10 ∨ month = 11 ∨ month = 12 := by omega
  rcases hmonths with rfl | rfl | rfl | rfl | rfl | rfl | rfl | rfl | rfl | rfl | rfl <;> rfl

theorem daysInMonth_february (year : Int) : daysInMonth year 2 = if isLeap year then 29 else 28 := rfl

/-! ### Dates -/

theorem Day.isDate_iff {d : Day} : d.isDate = true ↔
    1 ≤ d.month ∧ d.month ≤ 12 ∧ 1 ≤ d.day ∧ d.day ≤ daysInMonth d.year d.month := by
  simp only [isDate, Bool.and_eq_true, decide_eq_true_eq, and_assoc]

/-- The number of the first of March. -/
def marchFirst (year : Int) : Int := year / 400 * 146097 + yearStart (year % 400) - 719468

/-- A day is counted from the first of March before it. -/
theorem dayNumber_eq (year : Int) (month day : Nat) :
    dayNumber year month day =
      marchFirst (if month ≤ 2 then year - 1 else year) + monthStart ((month + 9) % 12 : Nat) + day - 1 := by
  simp only [dayNumber, marchFirst, yearStart, monthStart]
  omega

section FromMarch

variable (era : Int) {y m k : Int} (h : InMarchYear y m k)

include h

/-- The month is found again as one counted from March. -/
theorem month_fromMarch : (((fromMarch era y m k).month + 9) % 12 : Nat) = m := by
  obtain ⟨-, -, hm₀, hm₁, -, -, -⟩ := h
  simp only [fromMarch]
  split_ifs <;> omega

theorem isDate_fromMarch : (fromMarch era y m k).isDate = true := by
  have hindex := month_fromMarch era h
  obtain ⟨hy₀, hy₁, hm₀, hm₁, hk₀, hk₁, hlt⟩ := h
  have hmonth : 1 ≤ (fromMarch era y m k).month ∧ (fromMarch era y m k).month ≤ 12 := by
    simp only [fromMarch]
    split_ifs <;> omega
  refine Day.isDate_iff.mpr ⟨hmonth.1, hmonth.2, ?_, ?_⟩
  · simp only [fromMarch]
    omega
  · have hday : ((fromMarch era y m k).day : Int) = k + 1 := Int.toNat_of_nonneg (by omega)
    by_cases hfebruary : (fromMarch era y m k).month = 2
    · have hm : m = 11 := by
        rw [← hindex, hfebruary]
        rfl
      have hyear : (fromMarch era y m k).year = era * 400 + y + 1 := by
        simp only [fromMarch]
        split_ifs <;> omega
      rw [yearLength_eq hy₀ hy₁ era, hm, monthStart] at hlt
      rw [hfebruary, daysInMonth_february, hyear]
      split_ifs at hlt ⊢ <;> omega
    · have hlength := daysInMonth_eq (fromMarch era y m k).year hmonth.1 hmonth.2 hfebruary
      rw [hindex] at hlength
      omega

theorem number_fromMarch :
    (fromMarch era y m k).number = era * 146097 + yearStart y + monthStart m + k - 719468 := by
  have hindex := month_fromMarch era h
  obtain ⟨hy₀, hy₁, hm₀, hm₁, hk₀, -, -⟩ := h
  have hyear : (if (fromMarch era y m k).month ≤ 2 then (fromMarch era y m k).year - 1
      else (fromMarch era y m k).year) = era * 400 + y := by
    simp only [fromMarch]
    split_ifs <;> omega
  have hday : ((fromMarch era y m k).day : Int) = k + 1 := Int.toNat_of_nonneg (by omega)
  rw [Day.number, dayNumber_eq, hyear, hindex, hday, marchFirst]
  have hera : (era * 400 + y) / 400 = era ∧ (era * 400 + y) % 400 = y := by omega
  rw [hera.1, hera.2]
  omega

end FromMarch

/-- A year from March on ends with the February of the next. -/
theorem marchFirst_succ (year : Int) :
    marchFirst year = marchFirst (year - 1) + if isLeap year then 366 else 365 := by
  have h₀ := Int.emod_nonneg (year - 1) (by decide : (400 : Int) ≠ 0)
  have h₁ := Int.emod_lt_of_pos (year - 1) (by decide : (0 : Int) < 400)
  have hlength := yearLength_eq h₀ h₁ ((year - 1) / 400)
  have hyear : (year - 1) / 400 * 400 + (year - 1) % 400 + 1 = year := by omega
  rw [hyear, yearLength] at hlength
  rw [← hlength, marchFirst, marchFirst]
  -- The first of March begins an era if the year before it was the last of one.
  have hnext : (year - 1) % 400 = 399 ∧ year % 400 = 0 ∧ year / 400 = (year - 1) / 400 + 1 ∨
      year % 400 = (year - 1) % 400 + 1 ∧ year / 400 = (year - 1) / 400 := by omega
  rcases hnext with ⟨h₂, h₃, h₄⟩ | ⟨h₃, h₄⟩
  · rw [h₂, h₃, h₄]
    simp only [yearStart]
    omega
  · rw [h₃, h₄]
    omega

/-- The first of a month comes after the last of the month before. -/
theorem dayNumber_succ_month (year : Int) {month : Nat} (h₀ : 1 ≤ month) (h₁ : month < 12) :
    dayNumber year (month + 1) 1 = dayNumber year month (daysInMonth year month) + 1 := by
  by_cases hfebruary : month = 2
  · rw [hfebruary, dayNumber_eq, dayNumber_eq, daysInMonth_february, if_neg (by decide), if_pos (by decide),
      marchFirst_succ]
    simp only [monthStart]
    split_ifs <;> omega
  · have hindex : (month + 1 + 9) % 12 = (month + 9) % 12 + 1 := by omega
    have hside : month + 1 ≤ 2 ↔ month ≤ 2 := by omega
    rw [dayNumber_eq, dayNumber_eq, daysInMonth_eq year h₀ (Nat.le_of_lt h₁) hfebruary, hindex]
    simp only [hside]
    push_cast
    omega

/-- The first of January comes after the last of December. -/
theorem dayNumber_succ_year (year : Int) :
    dayNumber (year + 1) 1 1 = dayNumber year 12 (daysInMonth year 12) + 1 := by
  have hlength : daysInMonth year 12 = 31 := rfl
  rw [hlength, dayNumber_eq, dayNumber_eq, if_pos (by decide), if_neg (by decide), Int.add_sub_cancel]
  simp only [monthStart]
  omega

namespace Day

/-- The day after a day. -/
def next (d : Day) : Day :=
  if d.day < daysInMonth d.year d.month then { d with day := d.day + 1 }
  else if d.month < 12 then ⟨d.year, d.month + 1, 1⟩
  else ⟨d.year + 1, 1, 1⟩

/-- **The numbers are those of the calendar**: the day after a date has the next number. -/
theorem number_next {d : Day} (h : d.isDate = true) : d.next.number = d.number + 1 := by
  obtain ⟨hmonth₀, hmonth₁, hday₀, hday₁⟩ := isDate_iff.mp h
  rw [next]
  split_ifs with hday hmonth
  · simp only [number, dayNumber_eq]
    push_cast
    omega
  · have hlast : d.day = daysInMonth d.year d.month := by omega
    simp only [number, dayNumber_succ_month d.year hmonth₀ hmonth, hlast]
  · have hdecember : d.month = 12 := by omega
    have hlast : d.day = daysInMonth d.year 12 := by
      rw [hdecember] at hday hday₁
      omega
    simp only [number, dayNumber_succ_year, hlast, hdecember]

theorem isDate_ofNumber (n : Int) : (ofNumber n).isDate = true := by
  obtain ⟨era, y, m, k, h, -, hday⟩ := exists_fromMarch n
  rw [hday]
  exact isDate_fromMarch era h

/-- **A number is that of its day.** -/
theorem number_ofNumber (n : Int) : (ofNumber n).number = n := by
  obtain ⟨era, y, m, k, h, hn, hday⟩ := exists_fromMarch n
  rw [hday, number_fromMarch era h, hn]

end Day

/-- The first of January 1970 has number zero. -/
example : dayNumber 1970 1 1 = 0 := by decide

end CborGraph.Calendar
