import CborGraph.Proofs.DateTimeForm
import CborGraph.Proofs.FullSink
import CborGraph.Proofs.WalkRun

/-!
# Times of the local clock

A date and time with no offset is written at the default offset, and a date as its midnight at offset
zero. Both could be replaced beforehand, everywhere in a graph: by the date and time that shows the same
day and clock at the default offset, if it lies in the range of years, and by that of midnight. `zoned`
replaces them. Walks then take the same steps through the same containers, whatever cycles there are,
so the same is written, and the default offset is not needed any more.

Main statement: `encode_zoned`, for every sink.
-/

namespace CborGraph

/-! ### What is shown -/

namespace NaiveDateTime

variable (t : NaiveDateTime)

/-- The day on the calendar. -/
def localDay : Calendar.Day := .ofNumber (t.seconds / Calendar.daySeconds)

/-- Seconds of the day, a leap second not counted. -/
def secondOfDay : Nat := (t.seconds % Calendar.daySeconds).toNat

/-- The date and time has the offset, and shows the same day and time of day. -/
structure ShownBy (offset : Offset) (u : DateTime) : Prop where
  offset : u.offset = offset
  day : u.localDay = t.localDay
  second : u.secondOfDay = t.secondOfDay
  nanos : u.nanos = t.nanos

/-- Day and second of the day make the time. -/
theorem number_localDay : t.localDay.number * 86400 + t.secondOfDay = t.seconds := by
  rw [localDay, Calendar.Day.number_ofNumber, secondOfDay, Calendar.daySeconds]
  omega

variable {t} {offset : Offset} {u : DateTime}

/-- What is shown determines the second in UTC: it is earlier by the offset. -/
theorem ShownBy.seconds (h : t.ShownBy offset u) : u.seconds = t.seconds - offset.seconds := by
  have hlocal := u.number_localDay
  rw [h.day, h.second, t.number_localDay, DateTime.localSeconds, h.offset] at hlocal
  omega

/-- **The date and time at an offset** is the one that shows the same. -/
theorem at?_eq_some_iff : t.at? offset = some u ↔ t.ShownBy offset u := by
  rw [at?]
  constructor
  · intro h
    split at h
    · cases h
      refine ⟨rfl, ?_, ?_, rfl⟩
      · rw [DateTime.localDay, DateTime.localSeconds, Int.sub_add_cancel]
        rfl
      · rw [DateTime.secondOfDay, DateTime.localSeconds, Int.sub_add_cancel]
        rfl
    · cases h
  · intro h
    have hseconds := h.seconds
    have hrange := u.inRange
    rw [hseconds] at hrange
    rw [dif_pos hrange, Option.some_inj]
    obtain ⟨seconds, nanos, uoffset, _, _⟩ := u
    obtain rfl : seconds = t.seconds - offset.seconds := hseconds
    obtain rfl : uoffset = offset := h.offset
    obtain rfl : nanos = t.nanos := h.nanos
    rfl

/-- There is one exactly if it lies in the range of years in UTC. -/
theorem exists_shownBy_iff :
    (∃ u, t.ShownBy offset u) ↔ InDateRange (t.seconds - offset.seconds) := by
  constructor
  · rintro ⟨u, h⟩
    rw [← h.seconds]
    exact u.inRange
  · intro h
    exact ⟨_, at?_eq_some_iff.mp (dif_pos h)⟩

end NaiveDateTime

/-- The date and time is midnight of the day, at offset zero. -/
structure Date.ShownBy (d : Date) (u : DateTime) : Prop where
  offset : u.offset = .utc
  day : u.localDay = .ofNumber d.days
  second : u.secondOfDay = 0
  nanos : u.nanos = 0

/-- **Midnight of a day** is what shows it. -/
theorem Date.ofDate_eq_iff {d : Date} {u : DateTime} : DateTime.ofDate d = u ↔ d.ShownBy u := by
  constructor
  · rintro rfl
    refine ⟨rfl, ?_, ?_, rfl⟩
    · rw [DateTime.localDay, DateTime.localSeconds]
      simp [DateTime.ofDate, Offset.utc, Calendar.daySeconds]
    · rw [DateTime.secondOfDay, DateTime.localSeconds]
      simp [DateTime.ofDate, Offset.utc]
  · intro h
    have hlocal := u.number_localDay
    rw [h.day, h.second, Calendar.Day.number_ofNumber, DateTime.localSeconds, h.offset] at hlocal
    obtain ⟨seconds, nanos, offset, _, _⟩ := u
    obtain rfl : offset = .utc := h.offset
    obtain rfl : nanos = 0 := h.nanos
    simp only [DateTime.ofDate, DateTime.mk.injEq, Calendar.daySeconds, true_and]
    simp [Offset.utc] at hlocal
    simpa using hlocal

/-! ### Replacing -/

section Zoned

variable (zone : Option Offset)

/-- The value with dates, and with dates and times that have no offset, replaced by dates and times at
an offset. One that has no place in UTC is left. -/
def Value.zoned : Value → Value
  | .naiveDateTime t => (zone.bind t.at?).elim (.naiveDateTime t) .dateTime
  | .date d => .dateTime (.ofDate d)
  | .tag number v => .tag number v.zoned
  | v => v

/-- The value of the caller's own with all values replaced that it can be read as. -/
def Custom.zoned (c : Custom) : Custom :=
  { c with
    sequence? := c.sequence?.map (·.map (Value.zoned zone))
    mapping? := c.mapping?.map (·.map (Prod.map (Value.zoned zone) (Value.zoned zone))) }

/-- The container with all values in it replaced. -/
def Cell.zoned : Cell → Cell
  | .array vs => .array (vs.map (Value.zoned zone))
  | .map es => .map (es.map (Prod.map (Value.zoned zone) (Value.zoned zone)))
  | .custom c => .custom (c.zoned zone)

/-- The graph with all values in its containers replaced. -/
def Graph.zoned (g : Graph) : Graph := ⟨g.cells.map (Cell.zoned zone)⟩

/-- What a container is read as, with all values replaced. -/
def Contents.zoned : Contents → Contents
  | .items vs => .items (vs.map (Value.zoned zone))
  | .entries es => .entries (es.map (Prod.map (Value.zoned zone) (Value.zoned zone)))

end Zoned

variable {zone : Option Offset}

namespace Contents

@[simp] theorem major_zoned (c : Contents) : (c.zoned zone).major = c.major := by cases c <;> rfl

@[simp] theorem length_zoned (c : Contents) : (c.zoned zone).length = c.length := by
  cases c <;> simp [zoned, length]

theorem values_zoned (c : Contents) : (c.zoned zone).values = c.values.map (Value.zoned zone) := by
  cases c with
  | items vs => rfl
  | entries es =>
    rw [zoned, values, values]
    induction es with
    | nil => rfl
    | cons e es ih =>
      obtain ⟨k, v⟩ := e
      rw [List.map_cons, Prod.map_apply, unpair_cons, ih, unpair_cons, List.map_cons, List.map_cons]

end Contents

namespace Cell

theorem contents?_zoned (cell : Cell) :
    (cell.zoned zone).contents? = cell.contents?.map (Contents.zoned zone) := by
  cases cell with
  | array vs => rfl
  | map es => rfl
  | custom c =>
    obtain ⟨name, fields, sequence?, mapping?⟩ := c
    cases mapping? <;> cases sequence? <;> rfl

end Cell

/-- Every container is seen with its values replaced. -/
theorem Graph.cell_zoned (g : Graph) (id : Ident) :
    (g.zoned zone).view.cell id = (g.view.cell id).zoned zone := by
  cases id with
  | temporary n => rfl
  | stored i =>
    simp only [view, zoned, Array.getElem?_map]
    cases g.cells[i]? <;> rfl

/-! ### Settings -/

/-- Other settings differ in the default offset only, and if they have one it is the same. -/
structure Settings.Forgets (settings other : Settings) : Prop where
  timestampMode : other.timestampMode = settings.timestampMode
  compactFloats : other.compactFloats = settings.compactFloats
  timezone : other.timezone = settings.timezone ∨ other.timezone = none

section Settings

variable {settings other : Settings} (h : settings.Forgets other)

include h

/-- What had no place in UTC has none. -/
theorem Settings.Forgets.bind_at? {t : NaiveDateTime} (ht : settings.timezone.bind t.at? = none) :
    other.timezone.bind t.at? = none := by
  obtain hsame | hnone := h.timezone
  · rw [hsame, ht]
  · rw [hnone, Option.bind_none]

/-- **A scalar has the same item** when it is replaced. -/
theorem item?_zoned (v : Value) : other.item? (v.zoned settings.timezone) = settings.item? v := by
  have hitem : ∀ u, other.dateTimeItem u = settings.dateTimeItem u := by
    intro u
    rw [Settings.dateTimeItem, Settings.dateTimeItem, h.timestampMode]
  cases v with
  | naiveDateTime t =>
    rw [Value.zoned]
    cases ht : settings.timezone.bind t.at? with
    | none =>
      rw [Option.elim_none, Settings.item?, Settings.item?, ht, h.bind_at? ht]
      rfl
    | some u => rw [Option.elim_some, Settings.item?, Settings.item?, ht, hitem, Option.map_some]
  | date d => exact congrArg some (hitem (.ofDate d))
  | dateTime t => exact congrArg some (hitem t)
  | _ => rfl

variable {view view' : View} (hview : ∀ id, view'.cell id = (view.cell id).zoned settings.timezone)

include hview

/-- **A value is refused for the same reason** when it is replaced. -/
theorem refusal?_zoned {v : Value} {e : EncodeError} (he : view.refusal? settings v = some e) :
    view'.refusal? other (v.zoned settings.timezone) = some e := by
  cases v with
  | naiveDateTime t =>
    rw [View.refusal?] at he
    split at he
    · next ht =>
      rw [Value.zoned, ht, Option.elim_none, View.refusal?, if_pos (h.bind_at? ht)]
      exact he
    · cases he
  | container id =>
    have hname : view'.typeName (.container id) = view.typeName (.container id) := by
      simp only [View.typeName, View.kind?, View.custom?, View.cell?, hview]
      cases view.cell id <;> rfl
    have hkept : (Value.container id).zoned settings.timezone = .container id := rfl
    rw [View.refusal?] at he
    split at he
    · next hc =>
      have hc' : view'.contents? id = none := by
        rw [View.contents?] at hc
        rw [View.contents?, hview, Cell.contents?_zoned, hc, Option.map_none]
      rw [hkept, View.refusal?, if_pos hc', hname]
      exact he
    · cases he
  | _ => cases he

end Settings

/-! ### Walks -/

/-- The walk with all values replaced. -/
def Walk.zoned (zone : Option Offset) : Walk → Walk
  | done => done
  | scalar item rest => scalar item (rest.zoned zone)
  | refused e rest => refused e (rest.zoned zone)
  | tag number payload rest => tag number (payload.zoned zone) (rest.zoned zone)
  | empty c rest => empty (c.zoned zone) (rest.zoned zone)
  | again id index rest => again id index (rest.zoned zone)
  | entered id c body rest => entered id (c.zoned zone) (body.zoned zone) (rest.zoned zone)

@[simp] theorem Walk.steps_zoned (sharing compact : Bool) (w : Walk) :
    (w.zoned zone).steps sharing compact = w.steps sharing compact := by
  induction w with
  | done => rfl
  | scalar item rest ih => rw [zoned, steps, steps, ih]
  | refused e rest ih => rw [zoned, steps, steps, ih]
  | tag number payload rest ihp ih => rw [zoned, steps, steps, ihp, ih]
  | empty c rest ih => rw [zoned, steps, steps, ih, Contents.major_zoned]
  | again id index rest ih => rw [zoned, steps, steps, ih]
  | entered id c body rest ihb ih =>
    rw [zoned, steps, steps, ihb, ih, Contents.major_zoned, Contents.length_zoned]

/-- **Through values that were replaced the walk is the same**, but for what was replaced. The same
containers are open and marked all along, for their identities stay. -/
theorem Walks.zoned {settings other : Settings} (h : settings.Forgets other) {view view' : View}
    (hview : ∀ id, view'.cell id = (view.cell id).zoned settings.timezone) {sharing : Bool}
    {opened : List Ident} {marks marks' : Marks} {vs : List Value} {w : Walk}
    (hw : Walks settings view sharing opened marks vs w marks') :
    Walks other view' sharing opened marks (vs.map (Value.zoned settings.timezone))
      (w.zoned settings.timezone) marks' := by
  have hcontents : ∀ {id c}, view.contents? id = some c →
      view'.contents? id = some (c.zoned settings.timezone) := by
    intro id c hc
    rw [View.contents?] at hc
    rw [View.contents?, hview, Cell.contents?_zoned, hc, Option.map_some]
  induction hw with
  | done => exact .done
  | scalar hv _ ih => exact .scalar ((item?_zoned h _).trans hv) ih
  | refused hv _ ih => exact .refused (refusal?_zoned h hview hv) ih
  | tag _ _ ihp ih => exact .tag ihp ih
  | empty hc h0 _ ih => exact .empty (hcontents hc) ((Contents.length_zoned _).trans h0) ih
  | again hc h0 hon hm _ ih =>
    exact .again (hcontents hc) (fun h => h0 ((Contents.length_zoned _).symm.trans h)) hon hm ih
  | cyclic hc h0 hoff ho _ ih =>
    exact .cyclic (hcontents hc) (fun h => h0 ((Contents.length_zoned _).symm.trans h)) hoff ho ih
  | entered hc h0 hnew _ _ ihb ih =>
    rw [← Contents.values_zoned] at ihb
    exact .entered (hcontents hc) (fun h => h0 ((Contents.length_zoned _).symm.trans h)) hnew ihb ih

/-! ### Documents -/

/-- With a sink that has no limit, the same is written. -/
theorem encode_zoned_unlimited {o other : Options} (ho : o.overrides = []) (ho' : other.overrides = [])
    (h : o.toSettings.Forgets other.toSettings) (hsharing : other.sharing = o.sharing) (g : Graph)
    (v : Value) {sink : Sink} {p p' : Outcome × Encoder} (hroom : sink.room = none)
    (hp : (Encoder.ofOptions o sink).encode g v = p)
    (hp' : (Encoder.ofOptions other sink).encode (g.zoned o.timezone) (v.zoned o.timezone) = p') :
    p'.1 = p.1 ∧ p'.2.state.sink.bytes = p.2.state.sink.bytes := by
  obtain ⟨w, marks, hw, hout, hbytes⟩ := Encoder.encode_walk ho g v hroom 0
  obtain ⟨u, _, hu, hout', hbytes'⟩ :=
    Encoder.encode_walk ho' (g.zoned o.timezone) (v.zoned o.timezone) hroom 0
  rw [hsharing] at hu hout' hbytes'
  obtain ⟨rfl, rfl⟩ := (hw.zoned h g.cell_zoned).unique hu
  have hcompact : other.compactFloats = o.compactFloats := h.compactFloats
  rw [hp] at hout hbytes
  rw [hp', hcompact, Walk.steps_zoned] at hout' hbytes'
  exact ⟨hout'.trans hout.symm, hbytes'.trans hbytes.symm⟩

/-! ### One value -/

/-- **A date is written as midnight at offset zero**, with any default offset or none. -/
theorem Options.writes_date {o : Options} (ho : o.overrides = []) (d : Date) :
    o.Writes (.date d) ((o.toSettings.dateTimeItem (.ofDate d)).wire o.compactFloats) := by
  intro view limit s hl hroom
  obtain ⟨limit, rfl⟩ := Nat.exists_eq_add_of_le' hl
  have hemits : Run.Emits (encodeValue builtinTable o.toSettings (limit + scalarDepth) view (.date d)) _ :=
    emits_encodeValue (b := .date) rfl (emits_dateTimeOps (.ofDate d))
  obtain ⟨u, hu, -, hbytes⟩ := hemits s hroom
  rw [o.table_of_overrides ho]
  exact ⟨u, hu, hbytes⟩

/-- **A date and time that has no place in UTC is refused** from any state, and nothing is written for
it. -/
theorem encodeValue_unplaced {o : Options} (ho : o.overrides = []) {t : NaiveDateTime}
    (ht : o.timezone.bind t.at? = none) {limit : Nat} (hl : limit ≠ 0) (view : View) (s : State) :
    ∃ u, encodeValue o.table o.toSettings limit view (.naiveDateTime t) s = (.failed .naiveDateTime, u) ∧
      u.sink.bytes = s.sink.bytes := by
  obtain ⟨limit, rfl⟩ := Nat.exists_eq_succ_of_ne_zero hl
  have hfound : builtinTable.resolve view (.naiveDateTime t) =
      some (.kind .naiveDateTime, Builtin.dateTime.ops) := by
    rw [resolve_builtinTable]
    rfl
  have hops : Builtin.dateTime.ops o.toSettings view (.naiveDateTime t) = [.fail .naiveDateTime] := by
    rw [show Builtin.dateTime.ops o.toSettings view (.naiveDateTime t) =
      Op.naiveDateTime o.toSettings t from rfl, Op.naiveDateTime, ht]
  rw [o.table_of_overrides ho, encodeValue_of_some hfound, hops, runAll_singleton]
  refine ⟨_, rfl, ?_⟩
  exact (State.bytes_descend _ _ _).trans (congrArg Sink.bytes s.sink_beginDocument)

/-! ### The theorem -/

/-- **Local times and dates are exactly shorthands.** Without functions of the caller, let every date and
time with no offset be replaced, everywhere in a graph, by the one that shows the same at the default
offset, if that lies in the range of years in UTC, and every date by its midnight at offset zero. Then
encoding ends in the same way, with sharing on or off, as texts or as numbers, and the same bytes
are written, into any sink; and this is so also if there is no default offset any more.

A date is written in the same way with any default offset or none. A date and time that could not be
replaced, since there is no default offset or it would leave the range, is refused wherever it stands,
and nothing is written for it. -/
theorem encode_zoned {o : Options} (ho : o.overrides = []) :
    (∀ (g : Graph) (v : Value) (sink : Sink) (other : Options),
      other = o ∨ other = { o with timezone := none } →
        let r := encode o g v sink
        let r' := encode other (g.zoned o.timezone) (v.zoned o.timezone) sink
        r'.1 = r.1 ∧ r'.2.bytes = r.2.bytes) ∧
    (∀ (t : NaiveDateTime) (u : DateTime), (Value.naiveDateTime t).zoned o.timezone = .dateTime u ↔
      ∃ offset, o.timezone = some offset ∧ t.ShownBy offset u) ∧
    (∀ (t : NaiveDateTime) (offset : Offset),
      (∃ u, t.ShownBy offset u) ↔ InDateRange (t.seconds - offset.seconds)) ∧
    (∀ (d : Date) (u : DateTime), (Value.date d).zoned o.timezone = .dateTime u ↔ d.ShownBy u) ∧
    (∀ (d : Date) (zone : Option Offset), Options.Writes { o with timezone := zone } (.date d)
      ((o.toSettings.dateTimeItem (.ofDate d)).wire o.compactFloats)) ∧
    ∀ t : NaiveDateTime, (∀ offset, o.timezone = some offset → ¬InDateRange (t.seconds - offset.seconds)) →
      (Value.naiveDateTime t).zoned o.timezone = .naiveDateTime t ∧
      ∀ (view : View) (limit : Nat) (s : State), limit ≠ 0 →
        ∃ u, encodeValue o.table o.toSettings limit view (.naiveDateTime t) s =
            (.failed .naiveDateTime, u) ∧ u.sink.bytes = s.sink.bytes := by
  refine ⟨fun g v sink other hother => ?_, fun t u => ?_, fun t offset => NaiveDateTime.exists_shownBy_iff,
    fun d u => ?_, fun d zone => ?_, fun t ht => ?_⟩
  · obtain ⟨ho', h, hsharing⟩ : other.overrides = [] ∧ o.toSettings.Forgets other.toSettings ∧
        other.sharing = o.sharing := by
      obtain rfl | rfl := hother
      · exact ⟨ho, ⟨rfl, rfl, .inl rfl⟩, rfl⟩
      · exact ⟨ho, ⟨rfl, rfl, .inr rfl⟩, rfl⟩
    intro r r'
    -- The runs are given names, so that the limit of nesting is not counted down.
    obtain ⟨q, hq⟩ : ∃ q, (Encoder.ofOptions o sink).encode g v = q := ⟨_, rfl⟩
    obtain ⟨q', hq'⟩ : ∃ q', (Encoder.ofOptions other sink).encode (g.zoned o.timezone)
      (v.zoned o.timezone) = q' := ⟨_, rfl⟩
    rw [show r = (q.1, q.2.state.sink) from encode_of_encoder hq,
      show r' = (q'.1, q'.2.state.sink) from encode_of_encoder hq']
    exact Encoder.encode_agree (by simp [ho]) (by simp [ho'])
      (encode_zoned_unlimited ho ho' h hsharing g v) hq hq'
  · have hplaced : (Value.naiveDateTime t).zoned o.timezone = .dateTime u ↔
        o.timezone.bind t.at? = some u := by
      rw [Value.zoned]
      cases o.timezone.bind t.at? with
      | none => simp
      | some _ => simp
    rw [hplaced, Option.bind_eq_some_iff]
    simp only [NaiveDateTime.at?_eq_some_iff]
  · rw [Value.zoned, Value.dateTime.injEq, Date.ofDate_eq_iff]
  · exact Options.writes_date (o := { o with timezone := zone }) ho d
  · have hnone : o.timezone.bind t.at? = none := by
      rw [Option.bind_eq_none_iff]
      intro offset hoffset
      exact dif_neg (ht offset hoffset)
    refine ⟨by rw [Value.zoned, hnone, Option.elim_none], fun view limit s hl => ?_⟩
    exact encodeValue_unplaced ho hnone hl view s

/-- An array that holds itself, one in the morning and a day is the same as an array of that morning at
one hour east and of midnight. On the first of all days the clock east of UTC shows one too early. -/
theorem encode_zoned_in_circle :
    let offset : Offset := ⟨3600, by decide, by decide⟩
    let o : Options := { sharing := true, timestampMode := true, timezone := some offset }
    let morning : NaiveDateTime := ⟨3610, 0, by decide, by decide⟩
    let first : NaiveDateTime := ⟨Calendar.firstDay * Calendar.daySeconds, 0, by decide, by decide⟩
    let self : Value := .container (.stored 0)
    let g : Graph := ⟨#[.array [.tag 5 (.naiveDateTime morning), self, .date ⟨1, by decide⟩]]⟩
    let g' : Graph := ⟨#[.array [.tag 5 (.dateTime ⟨10, 0, offset, by decide, by decide⟩), self,
      .dateTime ⟨86400, 0, .utc, by decide, by decide⟩]]⟩
    let r := encode o g self .unlimited
    let r' := encode { o with timezone := none } g' self .unlimited
    o.overrides = [] ∧ r'.1 = r.1 ∧ r'.2.bytes = r.2.bytes ∧ r.1 = .done ∧
      r.2.bytes = [0xD8, 28, 0x83, 0xC5, 0xC1, 10, 0xD8, 29, 0, 0xC1, 0x1A, 0, 1, 0x51, 0x80] ∧
      ¬InDateRange (first.seconds - offset.seconds) ∧
      ∃ u, encodeValue o.table o.toSettings 1 g.view (.naiveDateTime first) (.initial .unlimited true 0) =
          (.failed .naiveDateTime, u) ∧ u.sink.bytes = [] := by
  intro offset o morning first self g g' r r'
  have ho : o.overrides = [] := rfl
  have hzoned : g.zoned o.timezone = g' := congrArg Graph.mk (by decide +kernel)
  have hdone : r.1 = .done := by decide +kernel
  have hbytes : r.2.bytes =
      [0xD8, 28, 0x83, 0xC5, 0xC1, 10, 0xD8, 29, 0, 0xC1, 0x1A, 0, 1, 0x51, 0x80] := by
    decide +kernel
  have hleaves : ¬InDateRange (first.seconds - offset.seconds) := by decide +kernel
  obtain ⟨hsame, -, -, -, -, hrefused⟩ := encode_zoned ho
  have hr := hsame g self .unlimited { o with timezone := none } (.inr rfl)
  rw [hzoned] at hr
  refine ⟨ho, hr.1, hr.2, hdone, hbytes, hleaves, ?_⟩
  have hout : ∀ other, o.timezone = some other → ¬InDateRange (first.seconds - other.seconds) := by
    rintro _ ⟨⟩
    exact hleaves
  exact (hrefused first hout).2 g.view 1 (.initial .unlimited true 0) (by decide)

end CborGraph
