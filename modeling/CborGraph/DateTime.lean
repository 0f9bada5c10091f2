import CborGraph.Binary64
import CborGraph.Calendar
import CborGraph.Text.Padded

/-!
# Dates and times

A `DateTime` is a Unix second, nanoseconds within it, and the offset at which it is
shown. A `NaiveDateTime` is what a clock shows with no offset known, a `Date` a day of
the calendar. All three keep to the years from `-262143` to `262142`, in UTC for a
`DateTime`. The nanoseconds may reach two seconds: a second second is a leap second,
which is shown as second 60 of the minute.

`DateTime.isoText` and `DateTime.epochDouble` are the two forms in which a date and time
are written.
-/

namespace CborGraph

/-- How far local time is ahead of UTC: less than a day. -/
structure Offset where
  /-- Seconds east of UTC. -/
  seconds : Int
  /-- The offset is less than a day west. -/
  lower : -Calendar.daySeconds < seconds
  /-- The offset is less than a day east. -/
  upper : seconds < Calendar.daySeconds
deriving DecidableEq

namespace Offset

/-- The offset of UTC itself. -/
def utc : Offset := ⟨0, by decide, by decide⟩

/-- The offset of so many seconds, if that is less than a day. -/
def ofSeconds? (s : Int) : Option Offset :=
  if h : -Calendar.daySeconds < s ∧ s < Calendar.daySeconds then some ⟨s, h.1, h.2⟩ else none

/-- Sign, hours and minutes, and seconds only if there are any. -/
def clock (o : Offset) : List Char :=
  let n := o.seconds.natAbs
  (if o.seconds < 0 then '-' else '+') :: Text.padded 2 (n / 3600) ++
    ':' :: Text.padded 2 (n / 60 % 60) ++
    if n % 60 = 0 then [] else ':' :: Text.padded 2 (n % 60)

/-- The offset as a time zone is written: a letter for UTC, else the clock. -/
def zone (o : Offset) : List Char := if o.seconds = 0 then ['Z'] else o.clock

end Offset

/-- The second lies on a day of the range. -/
abbrev InDateRange (seconds : Int) : Prop :=
  Calendar.firstDay * Calendar.daySeconds ≤ seconds ∧
    seconds < (Calendar.lastDay + 1) * Calendar.daySeconds

/-- How many nanoseconds a second may be counted, with a leap second in it. -/
def leapNanos : Nat := 2000000000

/-- A date and time at an offset. -/
structure DateTime where
  /-- Seconds since the first of January 1970, UTC. -/
  seconds : Int
  /-- Nanoseconds since that second. -/
  nanos : Nat
  /-- The offset of the local time. -/
  offset : Offset
  /-- The UTC date lies in the range of years. -/
  inRange : InDateRange seconds
  /-- At most one leap second follows the second. -/
  nanos_lt : nanos < leapNanos
deriving DecidableEq

/-- A date and time with no offset. -/
structure NaiveDateTime where
  /-- Seconds that a clock set to zero at the start of 1970 would show. -/
  seconds : Int
  /-- Nanoseconds since that second. -/
  nanos : Nat
  /-- The date lies in the range of years. -/
  inRange : InDateRange seconds
  /-- At most one leap second follows the second. -/
  nanos_lt : nanos < leapNanos
deriving DecidableEq

/-- A day of the calendar, by its number. -/
structure Date where
  /-- Days since the first of January 1970. -/
  days : Int
  /-- The day lies in the range of years. -/
  inRange : Calendar.firstDay ≤ days ∧ days ≤ Calendar.lastDay
deriving DecidableEq

namespace Date

/-- The date of a day of the calendar, if the day exists and lies in the range. -/
def ofDay? (d : Calendar.Day) : Option Date :=
  if h : Calendar.firstDay ≤ d.number ∧ d.number ≤ Calendar.lastDay then
    if d.isDate then some ⟨d.number, h⟩ else none
  else none

end Date

namespace NaiveDateTime

/-- What a clock shows on a day. A leap second is counted on the last second of a
minute only. -/
def ofClock? (d : Calendar.Day) (hour minute second nanos : Nat) : Option NaiveDateTime :=
  let seconds := d.number * Calendar.daySeconds + (hour * 3600 + minute * 60 + second : Nat)
  if h : InDateRange seconds ∧ nanos < leapNanos then
    if d.isDate ∧ hour < 24 ∧ minute < 60 ∧ second < 60 ∧ (nanos < 1000000000 ∨ second = 59) then
      some ⟨seconds, nanos, h.1, h.2⟩
    else none
  else none

/-- The date and time at which the local clock of `offset` shows `t`, unless its UTC
date leaves the range. -/
def at? (t : NaiveDateTime) (offset : Offset) : Option DateTime :=
  if h : InDateRange (t.seconds - offset.seconds) then
    some ⟨t.seconds - offset.seconds, t.nanos, offset, h, t.nanos_lt⟩
  else none

end NaiveDateTime

namespace DateTime

/-- A Unix second shown at an offset. -/
def ofUnix? (seconds : Int) (nanos : Nat) (offset : Offset) : Option DateTime :=
  if h : InDateRange seconds ∧ nanos < leapNanos then
    if nanos < 1000000000 ∨ seconds % 60 = 59 then some ⟨seconds, nanos, offset, h.1, h.2⟩ else none
  else none

/-- Midnight UTC on a date. -/
def ofDate (d : Date) : DateTime where
  seconds := d.days * Calendar.daySeconds
  nanos := 0
  offset := .utc
  inRange := by
    have := d.inRange
    simp only [InDateRange, Calendar.firstDay, Calendar.lastDay, Calendar.daySeconds] at *
    omega
  nanos_lt := by decide

/-- Microseconds since the second; in a leap second they go on from a million. -/
def micros (t : DateTime) : Nat := t.nanos / 1000

/-- What a local clock shows, in seconds since the start of 1970. -/
def localSeconds (t : DateTime) : Int := t.seconds + t.offset.seconds

/-! ### As text -/

/-- A year: four digits from 0 to 9999, and otherwise a sign and four digits or more. -/
def yearText (year : Int) : List Char :=
  if 0 ≤ year ∧ year ≤ 9999 then Text.padded 4 year.toNat
  else (if year < 0 then '-' else '+') :: Text.padded 4 year.natAbs

/-- The local day. -/
def dayText (t : DateTime) : List Char :=
  let d := Calendar.Day.ofNumber (t.localSeconds / Calendar.daySeconds)
  yearText d.year ++ '-' :: Text.padded 2 d.month ++ '-' :: Text.padded 2 d.day

/-- The local time of day. A leap second is the second after its own. -/
def timeText (t : DateTime) : List Char :=
  let n := (t.localSeconds % Calendar.daySeconds).toNat
  Text.padded 2 (n / 3600) ++ ':' :: Text.padded 2 (n / 60 % 60) ++
    ':' :: Text.padded 2 (n % 60 + t.nanos / 1000000000)

/-- The microseconds, if there are any, in six digits or more. -/
def fractionText (t : DateTime) : List Char :=
  if t.micros = 0 then [] else '.' :: Text.padded 6 t.micros

/-- Day, time, fraction and zone. -/
def isoText (t : DateTime) : List Char :=
  t.dayText ++ 'T' :: t.timeText ++ t.fractionText ++ t.offset.zone

/-! ### As a number -/

/-- Seconds and microseconds since the epoch, as the double nearest to the sum of the
seconds and the double nearest to the fraction. -/
def epochDouble (t : DateTime) : Binary64 :=
  (Binary64.ofRatio t.seconds 1).add (Binary64.ofRatio t.micros 1000000)

end DateTime

end CborGraph
