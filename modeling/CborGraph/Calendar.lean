/-!
# The proleptic Gregorian calendar

Days are numbered from the first of January 1970, which is day zero. Both directions
count in years that begin in March, so that the leap day is the last day of its year,
and in eras of four hundred years, which are all `146097` days long.
-/

namespace CborGraph.Calendar

/-- The year has a leap day. -/
def isLeap (year : Int) : Bool := year % 4 == 0 && (year % 100 != 0 || year % 400 == 0)

/-- The length of a month. -/
def daysInMonth (year : Int) (month : Nat) : Nat :=
  match month with
  | 2 => if isLeap year then 29 else 28
  | 4 | 6 | 9 | 11 => 30
  | _ => 31

/-- The number of a day. -/
def dayNumber (year : Int) (month day : Nat) : Int :=
  let y := if month ≤ 2 then year - 1 else year
  let yearOfEra := y % 400
  let monthFromMarch : Int := ((month + 9) % 12 : Nat)
  let dayOfYear := (153 * monthFromMarch + 2) / 5 + day - 1
  let dayOfEra := yearOfEra * 365 + yearOfEra / 4 - yearOfEra / 100 + dayOfYear
  y / 400 * 146097 + dayOfEra - 719468

/-- A day of the calendar. -/
structure Day where
  /-- The year. -/
  year : Int
  /-- The month, from 1 to 12. -/
  month : Nat
  /-- The day of the month, from 1 on. -/
  day : Nat
deriving DecidableEq

/-- The day with a number. -/
def Day.ofNumber (n : Int) : Day :=
  let z := n + 719468
  let dayOfEra := z % 146097
  let yearOfEra := (dayOfEra - dayOfEra / 1460 + dayOfEra / 36524 - dayOfEra / 146096) / 365
  let dayOfYear := dayOfEra - (365 * yearOfEra + yearOfEra / 4 - yearOfEra / 100)
  let monthFromMarch := (5 * dayOfYear + 2) / 153
  let day := dayOfYear - (153 * monthFromMarch + 2) / 5 + 1
  let month := if monthFromMarch < 10 then monthFromMarch + 3 else monthFromMarch - 9
  let year := z / 146097 * 400 + yearOfEra
  ⟨if month ≤ 2 then year + 1 else year, month.toNat, day.toNat⟩

/-- The month exists and has such a day. -/
def Day.isDate (d : Day) : Bool :=
  1 ≤ d.month && d.month ≤ 12 && 1 ≤ d.day && d.day ≤ daysInMonth d.year d.month

/-- The number of the day. -/
def Day.number (d : Day) : Int := dayNumber d.year d.month d.day

/-! ### The range -/

/-- The first of January of the year `-262143`. -/
def firstDay : Int := -96465292

/-- The last of December of the year `262142`. -/
def lastDay : Int := 95026236

example : firstDay = dayNumber (-262143) 1 1 ∧ lastDay = dayNumber 262142 12 31 := by decide

/-- The seconds of a day. -/
def daySeconds : Int := 86400

end CborGraph.Calendar
