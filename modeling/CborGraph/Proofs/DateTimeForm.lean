import CborGraph.Proofs.Gregorian
import CborGraph.Proofs.Integers
import CborGraph.Proofs.Sized

/-!
# The two forms of dates and times

A date and time is written as the item `Settings.dateTimeItem`, from any state of the encoder and
wherever it stands: `Options.writes_dateTime`. What it denotes is its `DateTime.instant`, of which no
more is written than the microseconds. It is shown as a day of the local calendar, `DateTime.localDay`,
and a second of that day.
-/

namespace CborGraph

/-- Wherever the value stands, these bytes are written for it, if the sink has no limit. -/
def Options.Writes (o : Options) (v : Value) (bs : Bytes) : Prop :=
  ∀ (view : View) (limit : Nat) (s : State), scalarDepth ≤ limit → s.sink.room = none →
    ∃ t, encodeValue o.table o.toSettings limit view v s = (.done, t) ∧
      t.sink.bytes = s.sink.bytes ++ bs

namespace DateTime

variable (t : DateTime)

/-- It lies in the leap second that follows its second. -/
def InLeapSecond : Prop := 1000000000 ≤ t.nanos

/-- Nanoseconds since the epoch, leap seconds not counted. -/
def instant : Int := t.seconds * 1000000000 + t.nanos

/-- The day on the local calendar. -/
def localDay : Calendar.Day := .ofNumber (t.localSeconds / Calendar.daySeconds)

/-- Seconds of the local day, a leap second not counted. -/
def secondOfDay : Nat := (t.localSeconds % Calendar.daySeconds).toNat

theorem isDate_localDay : t.localDay.isDate = true := Calendar.Day.isDate_ofNumber _

theorem secondOfDay_lt : t.secondOfDay < 86400 := by
  rw [secondOfDay, Calendar.daySeconds]
  omega

/-- Local day and second of the day make the local time. -/
theorem number_localDay : t.localDay.number * 86400 + t.secondOfDay = t.localSeconds := by
  rw [localDay, Calendar.Day.number_ofNumber, secondOfDay, Calendar.daySeconds]
  omega

theorem dayText_eq : t.dayText = yearText t.localDay.year ++ '-' :: Text.padded 2 t.localDay.month ++
    '-' :: Text.padded 2 t.localDay.day := rfl

theorem timeText_eq : t.timeText = Text.padded 2 (t.secondOfDay / 3600) ++
    ':' :: Text.padded 2 (t.secondOfDay / 60 % 60) ++
    ':' :: Text.padded 2 (t.secondOfDay % 60 + t.nanos / 1000000000) := rfl

/-- Whole microseconds since the epoch are those of the second and those since the second. -/
theorem instant_div : t.instant / 1000 = t.seconds * 1000000 + t.micros := by
  rw [instant, micros]
  omega

variable {t}

theorem micros_lt (h : ¬t.InLeapSecond) : t.micros < 1000000 := by
  rw [InLeapSecond] at h
  rw [micros]
  omega

/-- Away from leap seconds the microseconds determine the second. -/
theorem instant_div_eq_iff {t' : DateTime} (h : ¬t.InLeapSecond) (h' : ¬t'.InLeapSecond) :
    t.instant / 1000 = t'.instant / 1000 ↔ t.seconds = t'.seconds ∧ t.micros = t'.micros := by
  have := micros_lt h
  have := micros_lt h'
  rw [instant_div, instant_div]
  omega

end DateTime

/-! ### Runs -/

section Emits

variable {settings : Settings} {view : View} {limit : Nat}

theorem emits_text (s : String) :
    Run.Emits (encodeValue builtinTable settings (limit + 1) view (.text s))
      ((Item.text s).wire settings.compactFloats) := by
  refine emits_encodeValue (b := .text) rfl ?_
  exact emits_cons (emits_write _) (emits_singleton (emits_write _))

theorem emits_float (x : Binary64) :
    Run.Emits (encodeValue builtinTable settings (limit + 1) view (.float x))
      ((Item.float x.quiet).wire settings.compactFloats) := by
  refine emits_encodeValue (b := .float) rfl ?_
  rw [Item.wire, item_quiet]
  exact emits_singleton (emits_write _)

theorem emits_integer (i : Int) :
    Run.Emits (encodeValue builtinTable settings (limit + 2) view (.integer i))
      ((Item.ofInt i).wire settings.compactFloats) :=
  emits_encodeValue (b := .integer) rfl (emits_integerOps i)

/-- A tag around a value. -/
theorem emits_tagged (number : UInt64) {v : Value} {i : Item}
    (h : Run.Emits (encodeValue builtinTable settings limit view v) (i.wire settings.compactFloats)) :
    Run.Emits (Op.runAll (encodeValue builtinTable settings limit) view (Op.semantic number (.known v) false))
      ((Item.tag number.toNat i).wire settings.compactFloats) := by
  rw [wire_tag]
  exact emits_cons (emits_write _) (emits_singleton (emits_value h))

/-- The operations of a date and time write its item, from any state. -/
theorem emits_dateTimeOps (t : DateTime) :
    Run.Emits (Op.runAll (encodeValue builtinTable settings (limit + 2)) view (Op.dateTime settings t))
      ((settings.dateTimeItem t).wire settings.compactFloats) := by
  rw [Op.dateTime, Settings.dateTimeItem]
  split
  · refine emits_tagged _ ?_
    rw [Op.timestamp]
    split
    · exact emits_integer _
    · exact emits_float _
  · exact emits_tagged _ (emits_text _)

end Emits

/-- **Without entries of the caller a date and time is written as its item.** -/
theorem Options.writes_dateTime {o : Options} (ho : o.overrides = []) (t : DateTime) :
    o.Writes (.dateTime t) ((o.toSettings.dateTimeItem t).wire o.compactFloats) := by
  intro view limit s hl hroom
  obtain ⟨limit, rfl⟩ := Nat.exists_eq_add_of_le' hl
  have hemits : Run.Emits (encodeValue builtinTable o.toSettings (limit + scalarDepth) view (.dateTime t)) _ :=
    emits_encodeValue (b := .dateTime) rfl (emits_dateTimeOps t)
  obtain ⟨u, hu, -, hbytes⟩ := hemits s hroom
  rw [o.table_of_overrides ho]
  exact ⟨u, hu, hbytes⟩

end CborGraph
