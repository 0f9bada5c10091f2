import CborGraph.Proofs.DateTimeForm
import CborGraph.Proofs.PaddedNumeral

/-!
# Reading dates and times

What a reader makes of the text of a date and time: a `Stamp`, with every field as it is shown.
`Stamp.read?` knows the signs and digits of each field and nothing of the calendar. A stamp denotes an
instant by the calendar and its offset, `Stamp.unixSeconds`.

Main statement: `encode_dateTime_instant`, the text and the number of a date and time denote the same
instant. It comes from `DateTime.read?_isoText`, the text is read back, and `DateTime.unixSeconds_stamp`.
-/

namespace CborGraph

/-! ### Stamps -/

/-- The fields of a date and time as they are shown. -/
structure Stamp where
  /-- The day. -/
  day : Calendar.Day
  /-- Hours since midnight. -/
  hour : Nat
  /-- Minutes since the hour. -/
  minute : Nat
  /-- Seconds since the minute. -/
  second : Nat
  /-- Microseconds since the second. -/
  micros : Nat
  /-- Seconds by which the clock is ahead of UTC. -/
  offset : Int
deriving DecidableEq

namespace Stamp

/-- The day and the time of day exist. -/
structure Valid (s : Stamp) : Prop where
  isDate : s.day.isDate = true
  hour_lt : s.hour < 24
  minute_lt : s.minute < 60
  second_lt : s.second < 60
  micros_lt : s.micros < 1000000

/-- The second that the stamp denotes, since the epoch. -/
def unixSeconds (s : Stamp) : Int :=
  s.day.number * 86400 + (s.hour * 3600 + s.minute * 60 + s.second : Nat) - s.offset

/-! ### A reader -/

/-- So many digits, and what follows them. -/
def digits? (width : Nat) (cs : List Char) : Option (Nat × List Char) :=
  let front := cs.take width
  if front.length = width ∧ front.all Char.isDigit then some (Literal.numeral front, cs.drop width)
  else none

/-- What follows a character. -/
def after? (c : Char) : List Char → Option (List Char)
  | [] => none
  | d :: cs => if d = c then some cs else none

/-- All the digits at the front, four at least, and what follows them. -/
def longYear? (cs : List Char) : Option (Nat × List Char) :=
  let width := (cs.takeWhile Char.isDigit).length
  if 4 ≤ width then digits? width cs else none

/-- A year: a sign and four digits or more, or four digits with no sign. -/
def year? : List Char → Option (Int × List Char)
  | '-' :: cs => (longYear? cs).map fun (n, cs) => (-(n : Int), cs)
  | '+' :: cs => (longYear? cs).map fun (n, cs) => ((n : Int), cs)
  | cs => (digits? 4 cs).map fun (n, cs) => ((n : Int), cs)

/-- A year, a month and a day. -/
def day? (cs : List Char) : Option (Calendar.Day × List Char) := do
  let (year, cs) ← year? cs
  let (month, cs) ← digits? 2 (← after? '-' cs)
  let (day, cs) ← digits? 2 (← after? '-' cs)
  some (⟨year, month, day⟩, cs)

/-- Microseconds, which may be absent. -/
def fraction? : List Char → Option (Nat × List Char)
  | '.' :: cs => digits? 6 cs
  | cs => some (0, cs)

/-- Hours and minutes, perhaps seconds, and the end; in seconds. -/
def clock? (cs : List Char) : Option Nat := do
  let (hours, cs) ← digits? 2 cs
  let (minutes, cs) ← digits? 2 (← after? ':' cs)
  if cs.isEmpty then some (hours * 3600 + minutes * 60)
  else
    let (seconds, cs) ← digits? 2 (← after? ':' cs)
    if cs.isEmpty then some (hours * 3600 + minutes * 60 + seconds) else none

/-- The letter of UTC, or a sign and a clock. -/
def zone? : List Char → Option Int
  | ['Z'] => some 0
  | '+' :: cs => (clock? cs).map fun n : Nat => (n : Int)
  | '-' :: cs => (clock? cs).map fun n : Nat => -(n : Int)
  | _ => none

/-- The stamp that a text shows. -/
def read? (cs : List Char) : Option Stamp := do
  let (day, cs) ← day? cs
  let (hour, cs) ← digits? 2 (← after? 'T' cs)
  let (minute, cs) ← digits? 2 (← after? ':' cs)
  let (second, cs) ← digits? 2 (← after? ':' cs)
  let (micros, cs) ← fraction? cs
  let offset ← zone? cs
  some ⟨day, hour, minute, second, micros, offset⟩

/-! ### Reading what was put together -/

theorem digits?_fixed (width n : Nat) (cs : List Char) :
    digits? width (Text.fixed width n ++ cs) = some (n % 10 ^ width, cs) := by
  have hlen := Text.length_fixed width n
  have hall : (Text.fixed width n).all Char.isDigit = true :=
    List.all_eq_true.mpr fun _ => Text.isDigit_fixed
  simp only [digits?, List.take_left' hlen, List.drop_left' hlen, Text.numeral_fixed]
  rw [if_pos ⟨hlen, hall⟩]

/-- A padded numeral that has room is read back. -/
theorem digits?_padded {width n : Nat} (h₀ : 0 < width) (h : n < 10 ^ width) (cs : List Char) :
    digits? width (Text.padded width n ++ cs) = some (n, cs) := by
  rw [Text.padded_eq_fixed h₀ h, digits?_fixed, Nat.mod_eq_of_lt h]

theorem digits?_two {n : Nat} (h : n < 100) (cs : List Char) :
    digits? 2 (Text.padded 2 n ++ cs) = some (n, cs) :=
  digits?_padded Nat.two_pos h cs

@[simp] theorem after?_cons (c : Char) (cs : List Char) : after? c (c :: cs) = some cs := by
  rw [after?, if_pos rfl]

theorem longYear?_padded (n : Nat) {c : Char} (hc : c.isDigit = false) (cs : List Char) :
    longYear? (Text.padded 4 n ++ c :: cs) = some (n, c :: cs) := by
  obtain ⟨width, hwidth, hlt, hpadded⟩ := Text.exists_padded_eq_fixed (by decide : 0 < 4) n
  have hfront : (Text.fixed width n ++ c :: cs).takeWhile Char.isDigit = Text.fixed width n := by
    rw [List.takeWhile_append_of_pos fun _ => Text.isDigit_fixed, List.takeWhile_cons_of_neg (by simp [hc]),
      List.append_nil]
  simp only [longYear?, hpadded, hfront, Text.length_fixed]
  rw [if_pos hwidth, digits?_fixed, Nat.mod_eq_of_lt hlt]

/-- A text that begins with a digit has a year with no sign. -/
theorem year?_of_isDigit {c : Char} (hc : c.isDigit = true) (cs : List Char) :
    year? (c :: cs) = (digits? 4 (c :: cs)).map fun (n, cs) => ((n : Int), cs) := by
  rw [year?]
  · rintro rest ⟨⟩
    cases hc
  · rintro rest ⟨⟩
    cases hc

theorem year?_yearText (year : Int) {c : Char} (hc : c.isDigit = false) (cs : List Char) :
    year? (DateTime.yearText year ++ c :: cs) = some (year, c :: cs) := by
  rw [DateTime.yearText]
  by_cases hplain : 0 ≤ year ∧ year ≤ 9999
  · have hlt : year.toNat < 10 ^ 4 := by omega
    have hread := digits?_padded (by decide) hlt (c :: cs)
    rw [if_pos hplain]
    rw [Text.padded_eq_fixed (by decide) hlt] at hread ⊢
    obtain ⟨d, ds, hd⟩ : ∃ d ds, Text.fixed 4 year.toNat = d :: ds := ⟨_, _, rfl⟩
    have hmem : d ∈ Text.fixed 4 year.toNat := by
      rw [hd]
      exact List.mem_cons_self
    have hdigit := Text.isDigit_fixed hmem
    rw [hd, List.cons_append] at hread ⊢
    rw [year?_of_isDigit hdigit, hread]
    exact congrArg (fun year => some (year, c :: cs)) (Int.toNat_of_nonneg hplain.1)
  · rw [if_neg hplain]
    by_cases hneg : year < 0
    · have hyear : -(year.natAbs : Int) = year := by omega
      rw [if_pos hneg, List.cons_append, year?, longYear?_padded _ hc]
      exact congrArg (fun year => some (year, c :: cs)) hyear
    · have hyear : (year.natAbs : Int) = year := by omega
      rw [if_neg hneg, List.cons_append, year?, longYear?_padded _ hc]
      exact congrArg (fun year => some (year, c :: cs)) hyear

theorem day?_dayText {d : Calendar.Day} (h : d.isDate = true) {c : Char} (cs : List Char) :
    day? (DateTime.yearText d.year ++ '-' :: Text.padded 2 d.month ++ '-' :: Text.padded 2 d.day ++ c :: cs) =
      some (d, c :: cs) := by
  obtain ⟨-, hmonth, -, hday⟩ := Calendar.Day.isDate_iff.mp h
  have hlength := Calendar.daysInMonth_le d.year d.month
  have hmonth' : d.month < 100 := by omega
  have hday' : d.day < 100 := by omega
  simp only [day?, List.append_assoc, List.cons_append, year?_yearText d.year (c := '-') rfl, after?_cons,
    digits?_two hmonth', digits?_two hday', Option.bind_eq_bind, Option.bind_some]

theorem clock?_clock {n : Nat} (h : n < 86400) :
    clock? (Text.padded 2 (n / 3600) ++ ':' :: Text.padded 2 (n / 60 % 60) ++
      if n % 60 = 0 then [] else ':' :: Text.padded 2 (n % 60)) = some n := by
  have hhours : n / 3600 < 100 := by omega
  have hminutes : n / 60 % 60 < 100 := by omega
  have hseconds : n % 60 < 100 := by omega
  have hlast := digits?_two hseconds []
  rw [List.append_nil] at hlast
  simp only [clock?, List.append_assoc, List.cons_append, after?_cons, digits?_two hhours,
    digits?_two hminutes, Option.bind_eq_bind, Option.bind_some]
  by_cases hwhole : n % 60 = 0
  · simp only [hwhole, if_true, List.isEmpty_nil, Option.some_inj]
    omega
  · simp only [hwhole, if_false, List.isEmpty_cons, Bool.false_eq_true, after?_cons, Option.bind_some, hlast,
      List.isEmpty_nil, if_true, Option.some_inj]
    omega

theorem zone?_zone (o : Offset) : zone? o.zone = some o.seconds := by
  have hlower := o.lower
  have hupper := o.upper
  rw [Calendar.daySeconds] at hlower hupper
  have hclock := clock?_clock (n := o.seconds.natAbs) (by omega)
  rw [Offset.zone]
  by_cases h0 : o.seconds = 0
  · rw [if_pos h0, h0]
    rfl
  · simp only [if_neg h0, Offset.clock, List.cons_append]
    by_cases hneg : o.seconds < 0
    · have hseconds : -(o.seconds.natAbs : Int) = o.seconds := by omega
      rw [if_pos hneg, zone?, hclock, Option.map_some, hseconds]
    · have hseconds : (o.seconds.natAbs : Int) = o.seconds := by omega
      rw [if_neg hneg, zone?, hclock, Option.map_some, hseconds]

theorem fraction?_fractionText {t : DateTime} (h : ¬t.InLeapSecond) :
    fraction? (t.fractionText ++ t.offset.zone) = some (t.micros, t.offset.zone) := by
  have hlt : t.micros < 10 ^ 6 := DateTime.micros_lt h
  rw [DateTime.fractionText]
  by_cases h0 : t.micros = 0
  · rw [if_pos h0, List.nil_append, h0]
    rw [Offset.zone, Offset.clock]
    split
    · rfl
    · split <;> rfl
  · rw [if_neg h0, List.cons_append, fraction?, digits?_padded (by decide) hlt]

end Stamp

theorem Offset.eq_of_seconds_eq {o o' : Offset} (h : o.seconds = o'.seconds) : o = o' := by
  cases o
  cases o'
  cases h
  rfl

/-! ### Reading the text of a date and time -/

namespace DateTime

variable {t : DateTime}

/-- What the text of a date and time shows, away from leap seconds. -/
def stamp (t : DateTime) : Stamp :=
  ⟨t.localDay, t.secondOfDay / 3600, t.secondOfDay / 60 % 60, t.secondOfDay % 60, t.micros, t.offset.seconds⟩

theorem nanos_div (h : ¬t.InLeapSecond) : t.nanos / 1000000000 = 0 :=
  Nat.div_eq_of_lt (Nat.lt_of_not_le h)

/-- **The text of a date and time is read back.** -/
theorem read?_isoText (h : ¬t.InLeapSecond) : Stamp.read? t.isoText = some t.stamp := by
  have hclock := t.secondOfDay_lt
  have hhour : t.secondOfDay / 3600 < 100 := by omega
  have hminute : t.secondOfDay / 60 % 60 < 100 := by omega
  have hsecond : t.secondOfDay % 60 < 100 := by omega
  have hday := fun cs => Stamp.day?_dayText t.isDate_localDay (c := 'T') cs
  rw [isoText, dayText_eq, timeText_eq, nanos_div h, Nat.add_zero]
  simp only [List.append_assoc, List.cons_append] at hday ⊢
  simp only [Stamp.read?, hday, Stamp.after?_cons, Stamp.digits?_two hhour, Stamp.digits?_two hminute,
    Stamp.digits?_two hsecond, Stamp.fraction?_fractionText h, Stamp.zone?_zone, Option.bind_eq_bind,
    Option.bind_some, stamp]

theorem valid_stamp (h : ¬t.InLeapSecond) : t.stamp.Valid :=
  ⟨t.isDate_localDay, Nat.div_lt_of_lt_mul t.secondOfDay_lt, Nat.mod_lt _ (by decide),
    Nat.mod_lt _ (by decide), micros_lt h⟩

/-- **The stamp denotes the second of the date and time.** -/
theorem unixSeconds_stamp (t : DateTime) : t.stamp.unixSeconds = t.seconds := by
  have hlocal := t.number_localDay
  rw [localSeconds] at hlocal
  simp only [Stamp.unixSeconds, stamp]
  omega

/-- **The text is that of the offset and of the instant**, to the microsecond. -/
theorem isoText_eq_iff {t' : DateTime} (h : ¬t.InLeapSecond) (h' : ¬t'.InLeapSecond) :
    t.isoText = t'.isoText ↔ t.offset = t'.offset ∧ t.instant / 1000 = t'.instant / 1000 := by
  rw [instant_div_eq_iff h h']
  constructor
  · intro htext
    have hstamp : some t.stamp = some t'.stamp := by rw [← read?_isoText h, ← read?_isoText h', htext]
    have hstamp := Option.some_inj.mp hstamp
    refine ⟨Offset.eq_of_seconds_eq (congrArg Stamp.offset hstamp), ?_, congrArg Stamp.micros hstamp⟩
    rw [← t.unixSeconds_stamp, ← t'.unixSeconds_stamp, hstamp]
  · rintro ⟨hoffset, hseconds, hmicros⟩
    simp only [isoText, dayText, timeText, fractionText, localSeconds, hoffset, hseconds, hmicros, nanos_div h,
      nanos_div h']

end DateTime

/-! ### Both forms -/

/-- The number that stands for a second since the epoch and for microseconds since the second: the
second itself if there are none, and otherwise the double nearest to the sum of the doubles nearest to
the two. -/
def Stamp.number (s : Stamp) : Item :=
  if s.micros = 0 then .ofInt s.unixSeconds
  else .float ((Binary64.ofRatio s.unixSeconds 1).add (Binary64.ofRatio s.micros 1000000))

theorem DateTime.wire_number_stamp (t : DateTime) (compact : Bool) :
    t.stamp.number.wire compact =
      (if t.micros = 0 then Item.ofInt t.seconds else .float t.epochDouble.quiet).wire compact := by
  have hmicros : t.stamp.micros = t.micros := rfl
  rw [Stamp.number, t.unixSeconds_stamp, hmicros]
  split
  · rfl
  · rw [Item.wire, Item.wire, item_quiet]
    rfl

/-- **The text and the number of a date and time denote the same instant.** Away from leap seconds,
from the text every field is read back as it was shown. The offset is that of the date and time, and the
instant that the fields denote by the calendar, less the offset, is that from which the number is
calculated. So two texts are the same exactly if the offsets are and the instants are to the
microsecond. -/
theorem encode_dateTime_instant {o : Options} (ho : o.overrides = []) {t : DateTime}
    (ht : ¬t.InLeapSecond) :
    (∃ s : Stamp, Stamp.read? t.isoText = some s ∧ s.Valid ∧ s.offset = t.offset.seconds ∧
      s.unixSeconds = t.seconds ∧ s.micros = t.nanos / 1000 ∧
      (o.timestampMode = false →
        o.Writes (.dateTime t) ((Item.tag 0 (.text (String.ofList t.isoText))).wire o.compactFloats)) ∧
      (o.timestampMode = true →
        o.Writes (.dateTime t) ((Item.tag 1 s.number).wire o.compactFloats))) ∧
    ∀ t' : DateTime, ¬t'.InLeapSecond →
      (t.isoText = t'.isoText ↔ t.offset = t'.offset ∧ t.instant / 1000 = t'.instant / 1000) := by
  have hwrites := Options.writes_dateTime ho t
  rw [Settings.dateTimeItem] at hwrites
  refine ⟨⟨t.stamp, DateTime.read?_isoText ht, DateTime.valid_stamp ht, rfl, t.unixSeconds_stamp, rfl,
    fun hmode => ?_, fun hmode => ?_⟩, fun t' ht' => DateTime.isoText_eq_iff ht ht'⟩
  · rw [hmode] at hwrites
    exact hwrites
  · rw [hmode, if_pos rfl, wire_tag] at hwrites
    have htag : (1 : Nat) = Tag.epochSeconds.toNat := rfl
    rw [htag, wire_tag, DateTime.wire_number_stamp]
    exact hwrites

/-- The last second before the year zero, at an offset with seconds: a year with a sign, and both forms. -/
theorem encode_dateTime_instant_before_year_zero :
    let t : DateTime := ⟨-62167219201, 999999999, ⟨-3723, by decide, by decide⟩, by decide, by decide⟩
    ¬t.InLeapSecond ∧ t.isoText = "-0001-12-31T22:57:56.999999-01:02:03".toList ∧
      ∃ s : Stamp, Stamp.read? t.isoText = some s ∧ s.day = ⟨-1, 12, 31⟩ ∧ s.unixSeconds = -62167219201 ∧
        ({} : Options).Writes (.dateTime t)
          ((Item.tag 0 (.text "-0001-12-31T22:57:56.999999-01:02:03")).wire false) ∧
        ({ timestampMode := true } : Options).Writes (.dateTime t) ((Item.tag 1 s.number).wire false) := by
  intro t
  have hleap : ¬t.InLeapSecond := by
    rw [DateTime.InLeapSecond]
    decide
  have htext : t.isoText = "-0001-12-31T22:57:56.999999-01:02:03".toList := by decide +kernel
  obtain ⟨⟨s, hread, -, -, hseconds, -, htextMode, -⟩, -⟩ :=
    encode_dateTime_instant (o := {}) rfl hleap
  obtain ⟨⟨s', hread', -, -, -, -, -, htimestampMode⟩, -⟩ :=
    encode_dateTime_instant (o := { timestampMode := true }) rfl hleap
  have hsame : s' = s := Option.some_inj.mp (hread'.symm.trans hread)
  have hday : s.day = ⟨-1, 12, 31⟩ := by
    have hstamp : some s = some t.stamp := by rw [← hread, DateTime.read?_isoText hleap]
    rw [Option.some_inj.mp hstamp]
    decide +kernel
  refine ⟨hleap, htext, s, hread, hday, hseconds, ?_, ?_⟩
  · have hwrites := htextMode rfl
    rwa [htext, String.ofList_toList] at hwrites
  · rw [← hsame]
    exact htimestampMode rfl

end CborGraph
