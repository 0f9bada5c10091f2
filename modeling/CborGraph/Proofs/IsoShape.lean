import CborGraph.Proofs.DateTimeForm
import CborGraph.Proofs.PaddedNumeral

/-!
# The shape of dates and times

A date and time should be shown as `YYYY-MM-DDTHH:MM:SS`, a point and six digits if there are
microseconds, and a zone: `DateTime.documentedText`, in which every field has its width. That is how
dates and times of the years 0 to 9999 are shown, but not in leap seconds. The microseconds of a leap
second go on from a million, and the width of the fraction is only a least one, so a leap second has
always a fraction of seven digits: `DateTime.isoText_of_leap`.

Main statement: `encode_dateTime_shape`.
-/

namespace CborGraph

namespace Offset

variable (o : Offset)

/-- The zone in fields of two digits. -/
def documentedZone : List Char :=
  let n := o.seconds.natAbs
  if o.seconds = 0 then ['Z']
  else (if o.seconds < 0 then '-' else '+') :: Text.fixed 2 (n / 3600) ++ ':' :: Text.fixed 2 (n / 60 % 60) ++
    if n % 60 = 0 then [] else ':' :: Text.fixed 2 (n % 60)

theorem zone_eq_documentedZone : o.zone = o.documentedZone := by
  have hlower := o.lower
  have hupper := o.upper
  rw [Calendar.daySeconds] at hlower hupper
  have hhours : o.seconds.natAbs / 3600 < 100 := by omega
  have hminutes : o.seconds.natAbs / 60 % 60 < 100 := by omega
  have hseconds : o.seconds.natAbs % 60 < 100 := by omega
  simp only [zone, clock, documentedZone, Text.padded_two hhours, Text.padded_two hminutes,
    Text.padded_two hseconds]

end Offset

namespace DateTime

variable (t : DateTime)

/-- Day and time in fields of their width, then this fraction and the zone. In a leap second the second
is one more than its own. -/
def shownWith (fraction : List Char) : List Char :=
  Text.fixed 4 t.localDay.year.toNat ++ '-' :: Text.fixed 2 t.localDay.month ++
    '-' :: Text.fixed 2 t.localDay.day ++ 'T' :: Text.fixed 2 (t.secondOfDay / 3600) ++
    ':' :: Text.fixed 2 (t.secondOfDay / 60 % 60) ++
    ':' :: Text.fixed 2 (t.secondOfDay % 60 + t.nanos / 1000000000) ++ fraction ++ t.offset.documentedZone

/-- The microseconds of the second that is shown, in six digits, if there are any. Those of a leap second
are counted from a million. -/
def documentedFraction : List Char :=
  if t.micros % 1000000 = 0 then [] else '.' :: Text.fixed 6 t.micros

/-- The text that a date and time should have. -/
def documentedText : List Char := t.shownWith t.documentedFraction

variable {t}

theorem shownWith_inj {f f' : List Char} : t.shownWith f = t.shownWith f' ↔ f = f' := by
  simp only [shownWith, List.append_left_inj, List.append_right_inj]

/-- Day, time and zone have their width. -/
theorem isoText_eq_shownWith (h : 0 ≤ t.localDay.year ∧ t.localDay.year ≤ 9999) :
    t.isoText = t.shownWith t.fractionText := by
  obtain ⟨-, hmonth, -, hday⟩ := Calendar.Day.isDate_iff.mp t.isDate_localDay
  have hlength := Calendar.daysInMonth_le t.localDay.year t.localDay.month
  have hclock := t.secondOfDay_lt
  have hnanos := t.nanos_lt
  rw [leapNanos] at hnanos
  have hyearText : yearText t.localDay.year = Text.fixed 4 t.localDay.year.toNat := by
    rw [yearText, if_pos h, Text.padded_eq_fixed (by decide) (by omega)]
  rw [isoText, dayText_eq, timeText_eq, hyearText, Offset.zone_eq_documentedZone,
    Text.padded_two (by omega : t.localDay.month < 100), Text.padded_two (by omega : t.localDay.day < 100),
    Text.padded_two (by omega : t.secondOfDay / 3600 < 100),
    Text.padded_two (by omega : t.secondOfDay / 60 % 60 < 100),
    Text.padded_two (by omega : t.secondOfDay % 60 + t.nanos / 1000000000 < 100)]
  simp only [shownWith, List.append_assoc, List.cons_append]

/-- Away from leap seconds the fraction has six digits, or is absent. -/
theorem fractionText_eq_documented (h : ¬t.InLeapSecond) : t.fractionText = t.documentedFraction := by
  have hlt := micros_lt h
  rw [fractionText, documentedFraction, Nat.mod_eq_of_lt hlt, Text.padded_eq_fixed (by decide) hlt]

/-- **In a leap second the fraction has seven digits**, of which the first is a one. -/
theorem fractionText_of_leap (h : t.InLeapSecond) :
    t.fractionText = '.' :: '1' :: Text.fixed 6 t.micros := by
  have hnanos := t.nanos_lt
  rw [InLeapSecond] at h
  rw [leapNanos] at hnanos
  have hle : 10 ^ 6 ≤ t.micros := by
    rw [micros]
    omega
  have hone : t.micros / 10 ^ 6 = 1 := by
    rw [micros]
    omega
  rw [fractionText, if_neg (by omega), Text.padded_eq_append hle, hone]
  rfl

/-- Seven digits are neither six nor none. -/
theorem fractionText_ne_documented (h : t.InLeapSecond) : t.fractionText ≠ t.documentedFraction := by
  intro heq
  have hlength := congrArg List.length heq
  rw [fractionText_of_leap h, documentedFraction] at hlength
  split at hlength
  · cases hlength
  · simp only [List.length_cons, Text.length_fixed] at hlength
    omega

end DateTime

/-- **Dates and times have the documented shape, except in leap seconds.** In the years 0 to 9999 the
text that is written is `YYYY-MM-DDTHH:MM:SS`, a point and six digits or nothing, and the zone, exactly
if the date and time lies in no leap second. In a leap second the shape is the same but for the
fraction, which has seven digits and is never absent. -/
theorem encode_dateTime_shape {o : Options} (ho : o.overrides = []) (hmode : o.timestampMode = false)
    {t : DateTime} (hyear : 0 ≤ t.localDay.year ∧ t.localDay.year ≤ 9999) :
    o.Writes (.dateTime t) ((Item.tag 0 (.text (String.ofList t.isoText))).wire o.compactFloats) ∧
    (t.isoText = t.documentedText ↔ ¬t.InLeapSecond) ∧
    (t.InLeapSecond → t.isoText = t.shownWith ('.' :: '1' :: Text.fixed 6 t.micros)) := by
  have hshown := DateTime.isoText_eq_shownWith hyear
  have hwrites := Options.writes_dateTime ho t
  rw [Settings.dateTimeItem, hmode] at hwrites
  refine ⟨hwrites, ?_, fun hleap => ?_⟩
  · rw [hshown, DateTime.documentedText, DateTime.shownWith_inj]
    exact ⟨fun heq hleap => DateTime.fractionText_ne_documented hleap heq, DateTime.fractionText_eq_documented⟩
  · rw [hshown, DateTime.fractionText_of_leap hleap]

/-- The first leap second, when it began, in the time of another zone. -/
theorem encode_dateTime_shape_first_leap_second :
    let t : DateTime := ⟨78796799, 1000000000, ⟨19800, by decide, by decide⟩, by decide, by decide⟩
    ({} : Options).Writes (.dateTime t)
        ((Item.tag 0 (.text "1972-07-01T05:29:60.1000000+05:30")).wire false) ∧
      t.isoText ≠ t.documentedText := by
  intro t
  have hleap : t.InLeapSecond := Nat.le_refl 1000000000
  have hyear : 0 ≤ t.localDay.year ∧ t.localDay.year ≤ 9999 := by decide +kernel
  have htext : String.ofList t.isoText = "1972-07-01T05:29:60.1000000+05:30" := by decide +kernel
  obtain ⟨hwrites, hdocumented, -⟩ := encode_dateTime_shape (o := {}) rfl rfl hyear
  rw [htext] at hwrites
  exact ⟨hwrites, fun heq => hdocumented.mp heq hleap⟩

/-- In the middle of a leap second the text has one digit more than it should. -/
theorem isoText_ne_documentedText :
    let t : DateTime := ⟨1483228799, 1500000000, .utc, by decide, by decide⟩
    t.localDay = ⟨2016, 12, 31⟩ ∧ t.isoText = "2016-12-31T23:59:60.1500000Z".toList ∧
      t.documentedText = "2016-12-31T23:59:60.500000Z".toList ∧ t.isoText ≠ t.documentedText := by
  decide +kernel

end CborGraph
