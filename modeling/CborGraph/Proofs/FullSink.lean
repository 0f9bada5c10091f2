import CborGraph.Proofs.Frame
import CborGraph.Proofs.ScalarRun

/-!
# Sinks that become full

With room for `n` bytes a run goes as with a sink that has no limit, up to the write that does not
fit. Of that write the sink takes what there is room for, and from then on nothing more is written,
for operations pass an error on unless they attempt something. `State.Cut` says what a run comes to
in a sink with so much room, given what it comes to without a limit.

Main statement: `encode_limited`, for every graph and all options whose functions attempt nothing.
-/

namespace CborGraph

/-! ### Operations that pass errors on -/

mutual

/-- The operation attempts something, and goes on if that fails. -/
def Op.attempts : Op → Bool
  | .attempt _ => true
  | .suspended body => Op.anyAttempts body
  | .container _ _ _ body => Op.anyAttempts body
  | _ => false

/-- One of the operations attempts something. -/
def Op.anyAttempts : List Op → Bool
  | [] => false
  | op :: ops => op.attempts || Op.anyAttempts ops

end

namespace Op

theorem anyAttempts_eq_false_iff {ops : List Op} :
    anyAttempts ops = false ↔ ∀ op ∈ ops, op.attempts = false := by
  induction ops with
  | nil => simp [anyAttempts]
  | cons op ops ih => simp [anyAttempts, ih]

theorem anyAttempts_items (ds : List Draft) : anyAttempts (items ds) = false := by
  rw [anyAttempts_eq_false_iff]
  intro op hop
  obtain ⟨d, -, rfl⟩ := List.mem_map.mp hop
  rfl

theorem anyAttempts_entries (ds : List (Draft × Draft)) : anyAttempts (entries ds) = false := by
  rw [anyAttempts_eq_false_iff]
  intro op hop
  obtain ⟨⟨k, v⟩, -, hop⟩ := List.mem_flatMap.mp hop
  simp only [List.mem_cons, List.not_mem_nil, or_false] at hop
  rcases hop with rfl | rfl <;> rfl

theorem anyAttempts_dateTime (settings : Settings) (t : DateTime) :
    anyAttempts (dateTime settings t) = false := by
  unfold dateTime
  split <;> rfl

theorem anyAttempts_integer (i : Int) : anyAttempts (integer i) = false := by
  simp only [integer]
  rw [← BigInt.argumentOf]
  split <;> rfl

theorem anyAttempts_naiveDateTime (settings : Settings) (t : NaiveDateTime) :
    anyAttempts (naiveDateTime settings t) = false := by
  unfold naiveDateTime
  split
  · exact anyAttempts_dateTime settings _
  · rfl

end Op

/-- **The built-in functions attempt nothing.** -/
theorem Builtin.anyAttempts_ops (b : Builtin) (settings : Settings) (view : View) (v : Value) :
    Op.anyAttempts (b.ops settings view v) = false := by
  cases b with
  | integer =>
    cases v with
    | integer i => exact Op.anyAttempts_integer i
    | _ => rfl
  | bigInt =>
    cases v with
    | bigInt n =>
      rw [show ops .bigInt settings view (.bigInt n) = Op.bigInt n from rfl, Op.bigInt_eq]
      exact Op.anyAttempts_integer n.toInt
    | _ => rfl
  | decimal =>
    cases v with
    | decimal d => cases d <;> rfl
    | _ => rfl
  | sequence =>
    cases v with
    | container id =>
      rw [ops, ops?]
      cases (view.cell id).sequence? with
      | none => rfl
      | some vs =>
        simp [Op.anyAttempts, Op.attempts, Op.anyAttempts_items]
    | _ => rfl
  | mapping =>
    cases v with
    | container id =>
      rw [ops, ops?]
      cases (view.cell id).mapping? with
      | none => rfl
      | some es =>
        simp [Op.anyAttempts, Op.attempts, Op.anyAttempts_entries]
    | _ => rfl
  | dateTime =>
    cases v with
    | dateTime t => exact Op.anyAttempts_dateTime settings t
    | naiveDateTime t => exact Op.anyAttempts_naiveDateTime settings t
    | _ => rfl
  | date =>
    cases v with
    | date d => exact Op.anyAttempts_dateTime settings _
    | _ => rfl
  | text | bytes | float | bool | null | undefined | regex | rational | mime | uuid | tag =>
    cases v <;> rfl

/-! ### Tables -/

namespace Table

variable {α : Type} {t : Table α} {key : TypeKey} {a : α}

/-- What a table stands for after an insertion it stood for before, or it was inserted. -/
theorem mem_entries_insert {key' : TypeKey} {b : α} (h : (key, a) ∈ (t.insert key' b).entries) :
    (key, a) ∈ t.entries ∨ a = b := by
  unfold insert at h
  split at h
  · rcases List.mem_or_eq_of_mem_set h with h | h
    · exact .inl h
    · exact .inr (Prod.mk.inj h).2
  · rcases List.mem_append.mp h with h | h
    · exact .inl h
    · exact .inr (Prod.mk.inj (List.mem_singleton.mp h)).2

theorem mem_entries_insertAll {entries : List (TypeKey × α)}
    (h : (key, a) ∈ (t.insertAll entries).entries) :
    (key, a) ∈ t.entries ∨ ∃ key', (key', a) ∈ entries := by
  induction entries generalizing t with
  | nil => exact .inl h
  | cons e entries ih =>
    rcases ih h with h | ⟨key', h⟩
    · rcases mem_entries_insert h with h | h
      · exact .inl h
      · exact .inr ⟨e.1, by rw [h]; exact List.mem_cons_self⟩
    · exact .inr ⟨key', List.mem_cons_of_mem _ h⟩

/-- What a table finds is one of its entries. -/
theorem mem_entries_of_resolve {view : View} {v : Value} (h : t.resolve view v = some (key, a)) :
    (key, a) ∈ t.entries := by
  unfold resolve at h
  split at h
  · exact List.mem_of_getElem? h
  · exact List.mem_of_find?_eq_some h

end Table

/-- **The functions of a table** are the built-in ones and those of the caller. -/
theorem Options.exists_of_resolve {o : Options} {view : View} {v : Value} {key : TypeKey}
    {f : EncodeFn} (h : o.table.resolve view v = some (key, f)) :
    (∃ b : Builtin, f = b.ops) ∨ ∃ key', (key', f) ∈ o.overrides := by
  rcases Table.mem_entries_insertAll (Table.mem_entries_of_resolve h) with h | h
  · rcases Table.mem_entries_insertAll h with h | ⟨key', h⟩
    · cases h
    · obtain ⟨⟨_, b⟩, -, hb⟩ := List.mem_map.mp h
      exact .inl ⟨b, (Prod.mk.inj hb).2.symm⟩
  · exact .inr h

/-! ### Cutting a run short -/

namespace State

/-- The state with a sink that has room for `n` more bytes. -/
def limited (n : Nat) (r : Refusal) (s : State) : State :=
  { s with sink := { s.sink with room := some n, refusal := r } }

/-- What a run from `s` comes to if its sink has room for `n` more bytes, given what it comes to in
a sink without a limit. -/
inductive Cut (n : Nat) (r : Refusal) (s : State) : Outcome × State → Outcome × State → Prop
  /-- There is room for everything. -/
  | whole {o t bs} (hroom : t.sink.room = none) (hbytes : t.sink.bytes = s.sink.bytes ++ bs)
      (hfits : bs.length ≤ n) : Cut n r s (o, t) (o, t.limited (n - bs.length) r)
  /-- There is room for the first bytes only. -/
  | short {o t t' bs} (hroom : t.sink.room = none) (hbytes : t.sink.bytes = s.sink.bytes ++ bs)
      (hlong : n < bs.length) (hcut : t'.sink.bytes = s.sink.bytes ++ bs.take n) :
      Cut n r s (o, t) (.failed r.error, t')

end State

/-- The change neither writes nor looks at the room of the sink. -/
structure State.Inert (g : State → State) : Prop where
  limited : ∀ n r s, g (s.limited n r) = (g s).limited n r
  room : ∀ s, (g s).sink.room = s.sink.room
  bytes : ∀ s, (g s).sink.bytes = s.sink.bytes

namespace State.Inert

theorem id : State.Inert fun s => s := ⟨fun _ _ _ => rfl, fun _ => rfl, fun _ => rfl⟩

theorem note (note : Note) : State.Inert fun s => s.note note :=
  ⟨fun _ _ _ => rfl, fun _ => rfl, fun _ => rfl⟩

theorem sharing (on : Bool) : State.Inert fun s => { s with sharing := on } :=
  ⟨fun _ _ _ => rfl, fun _ => rfl, fun _ => rfl⟩

theorem record {e : Event} (he : e.bytes = []) : State.Inert fun s => s.record e :=
  ⟨fun _ _ _ => rfl, fun _ => rfl, fun s => by rw [bytes_record, he, List.append_nil]⟩

theorem leave (id : Ident) : State.Inert fun s => s.leave id :=
  ⟨fun _ _ _ => rfl, fun _ => rfl, fun _ => (bytes_record _ _).trans (List.append_nil _)⟩

theorem ascend : State.Inert State.ascend := ⟨fun _ _ _ => rfl, fun _ => rfl, fun _ => rfl⟩

theorem beginDocument : State.Inert State.beginDocument where
  limited n r s := by
    unfold State.beginDocument State.limited
    split <;> rfl
  room s := by rw [sink_beginDocument]
  bytes s := by rw [sink_beginDocument]

end State.Inert

/-- With a sink that becomes full, the run is cut short. -/
def Run.Cuts (q : Run) : Prop :=
  ∀ n r s, s.sink.room = none → State.Cut n r s (q s) (q (s.limited n r))

namespace State.Cut

variable {n : Nat} {r : Refusal} {s s' : State} {full cut : Outcome × State}

/-- Only the bytes matter that were written before. -/
theorem of_bytes (h : Cut n r s' full cut) (hbytes : s'.sink.bytes = s.sink.bytes) :
    Cut n r s full cut := by
  cases h with
  | whole hroom hb hfits => exact .whole hroom (hbytes ▸ hb) hfits
  | short hroom hb hlong hcut => exact .short hroom (hbytes ▸ hb) hlong (hbytes ▸ hcut)

/-- A run that writes nothing has room for what it writes. -/
theorem idle {g : State → State} (hg : State.Inert g) (hs : s.sink.room = none) (o : Outcome) :
    Cut n r s (o, g s) (o, g (s.limited n r)) := by
  have hnothing : (g s).sink.bytes = s.sink.bytes ++ [] := by rw [hg.bytes, List.append_nil]
  rw [hg.limited]
  exact .whole ((hg.room s).trans hs) hnothing (Nat.zero_le n)

/-- What comes after the run and neither writes nor looks at the room makes no difference. -/
theorem after {g : State → State} (hg : State.Inert g) (h : Cut n r s full cut) :
    Cut n r s (full.1, g full.2) (cut.1, g cut.2) := by
  cases h with
  | whole hroom hb hfits =>
    rw [hg.limited]
    exact .whole ((hg.room _).trans hroom) ((hg.bytes _).trans hb) hfits
  | short hroom hb hlong hcut =>
    exact .short ((hg.room _).trans hroom) ((hg.bytes _).trans hb) hlong ((hg.bytes _).trans hcut)

/-- A run without a limit only adds to what was written. -/
theorem exists_bytes (h : Cut n r s full cut) :
    full.2.sink.room = none ∧ ∃ bs, full.2.sink.bytes = s.sink.bytes ++ bs := by
  cases h with
  | whole hroom hb _ => exact ⟨hroom, _, hb⟩
  | short hroom hb _ _ => exact ⟨hroom, _, hb⟩

/-- Bytes for which there is room come before the cut. -/
theorem of_fits {t : State} {bs : Bytes} (hb : t.sink.bytes = s.sink.bytes ++ bs)
    (hfits : bs.length ≤ n) (h : Cut (n - bs.length) r t full cut) : Cut n r s full cut := by
  cases h with
  | @whole o u cs hroom hcs hle =>
    have htotal : u.sink.bytes = s.sink.bytes ++ (bs ++ cs) := by rw [hcs, hb, List.append_assoc]
    have hleft : n - bs.length - cs.length = n - (bs ++ cs).length := by
      rw [List.length_append, Nat.sub_sub]
    rw [hleft]
    refine .whole hroom htotal ?_
    rw [List.length_append]
    omega
  | @short o u u' cs hroom hcs hlong hcut =>
    have htotal : u.sink.bytes = s.sink.bytes ++ (bs ++ cs) := by rw [hcs, hb, List.append_assoc]
    refine .short hroom htotal ?_ ?_
    · rw [List.length_append]
      omega
    · rw [hcut, hb, List.take_append, List.take_of_length_le hfits, List.append_assoc]

/-- What a run would have added after the cut is not written. -/
theorem of_long {t t' u : State} {o : Outcome} {bs cs : Bytes} (hroom : u.sink.room = none)
    (hcs : u.sink.bytes = t.sink.bytes ++ cs) (hb : t.sink.bytes = s.sink.bytes ++ bs)
    (hlong : n < bs.length) (hcut : t'.sink.bytes = s.sink.bytes ++ bs.take n) :
    Cut n r s (o, u) (.failed r.error, t') := by
  have htotal : u.sink.bytes = s.sink.bytes ++ (bs ++ cs) := by rw [hcs, hb, List.append_assoc]
  refine .short hroom htotal ?_ ?_
  · rw [List.length_append]
    omega
  · rw [hcut, List.take_append_of_le_length hlong.le]

/-- What is written is what there is room for. -/
theorem exists_written (h : Cut n r s full cut) :
    ∃ bs, full.2.sink.bytes = s.sink.bytes ++ bs ∧
      (bs.length ≤ n → cut.1 = full.1 ∧ cut.2.sink.bytes = full.2.sink.bytes) ∧
      (n < bs.length → cut.1 = .failed r.error ∧ cut.2.sink.bytes = s.sink.bytes ++ bs.take n) := by
  cases h with
  | whole _ hb hfits =>
    exact ⟨_, hb, fun _ => ⟨rfl, rfl⟩, fun hlong => absurd hfits (Nat.not_le_of_lt hlong)⟩
  | short _ hb hlong hcut =>
    exact ⟨_, hb, fun hfits => absurd hfits (Nat.not_le_of_lt hlong), fun _ => ⟨rfl, hcut⟩⟩

/-- Two runs that come to the same without a limit come to the same in sinks with as much room. -/
theorem agree {full' cut' : Outcome × State} (h : Cut n r s full cut) (h' : Cut n r s' full' cut')
    (hs : s'.sink.bytes = s.sink.bytes) (hout : full'.1 = full.1)
    (hbytes : full'.2.sink.bytes = full.2.sink.bytes) :
    cut'.1 = cut.1 ∧ cut'.2.sink.bytes = cut.2.sink.bytes := by
  obtain ⟨bs, hb, hfits, hlong⟩ := h.exists_written
  obtain ⟨cs, hb', hfits', hlong'⟩ := h'.exists_written
  obtain rfl : cs = bs := List.append_cancel_left (hs ▸ hb'.symm.trans (hbytes.trans hb))
  rcases Nat.lt_or_ge n cs.length with hlt | hle
  · obtain ⟨hcut, hwritten⟩ := hlong hlt
    obtain ⟨hcut', hwritten'⟩ := hlong' hlt
    exact ⟨hcut'.trans hcut.symm, by rw [hwritten', hwritten, hs]⟩
  · obtain ⟨hcut, hwritten⟩ := hfits hle
    obtain ⟨hcut', hwritten'⟩ := hfits' hle
    exact ⟨hcut'.trans (hout.trans hcut.symm), hwritten'.trans (hbytes.trans hwritten.symm)⟩

end State.Cut

namespace Run.Cuts

variable {q k : Run}

/-- **A write is cut short** if there is not room for all of it. -/
theorem put (e : Event) : Run.Cuts (State.put e) := by
  intro n r s hs
  rw [State.put_eq hs]
  by_cases h : e.bytes.length ≤ n
  · have hput : State.put e (s.limited n r) =
        (.done, (s.record e).limited (n - e.bytes.length) r) := by
      simp [State.put, Sink.put, State.limited, h, State.record]
    rw [hput]
    exact .whole hs (State.bytes_record s e) h
  · have hput : State.put e (s.limited n r) =
        (.failed r.error, (s.record (.wrote (e.bytes.take n))).limited 0 r) := by
      simp [State.put, Sink.put, State.limited, h, State.record]
    rw [hput]
    exact .short hs (State.bytes_record s e) (Nat.lt_of_not_le h) (State.bytes_record s _)

/-- A run that is cut short is not gone on from. -/
theorem andThen (hq : q.Cuts) (hk : k.Cuts) : (q.andThen k).Cuts := by
  intro n r s hs
  have h := hq n r s hs
  unfold Run.andThen
  generalize q s = full, q (s.limited n r) = cut at h
  cases h with
  | @whole o t bs hroom hb hfits =>
    cases o with
    | failed e => exact .whole hroom hb hfits
    | exhausted => exact .whole hroom hb hfits
    | done => exact (hk _ r t hroom).of_fits hb hfits
  | @short o t t' bs hroom hb hlong hcut =>
    cases o with
    | failed e => exact .short hroom hb hlong hcut
    | exhausted => exact .short hroom hb hlong hcut
    | done =>
      obtain ⟨hroom', cs, hcs⟩ := (hk 0 r t hroom).exists_bytes
      exact .of_long hroom' hcs hb hlong hcut

theorem enclosed (h : q.Cuts) (head : Bytes) (id : Ident) : (Run.enclosed head id q).Cuts := by
  refine (Run.Cuts.put _).andThen fun n r s hs => ?_
  exact ((h n r (s.enter id) hs).after (.leave id)).of_bytes
    ((State.bytes_record _ _).trans (List.append_nil _))

theorem admitted (h : q.Cuts) (head : Bytes) (id : Ident) : (Run.admitted head id q).Cuts := by
  intro n r s hs
  have ha : (s.limited n r).admission id = s.admission id := rfl
  unfold Run.admitted
  rw [ha]
  cases s.admission id with
  | marked index => exact put _ n r s hs
  | cyclic => exact .idle .id hs _
  | plain => exact h.enclosed head id n r s hs
  | fresh => exact ((put _).andThen (h.enclosed head id) n r (s.mark id) hs).of_bytes rfl

end Run.Cuts

namespace Op

variable {call : View → Value → Run}

mutual

/-- **An operation that attempts nothing is cut short** if the calls that it makes are. -/
theorem cuts_run (h : ∀ view v, (call view v).Cuts) (view : View) :
    ∀ op : Op, op.attempts = false → Run.Cuts (run call view op)
  | .write bs, _ => .put _
  | .encode d, _ => fun n r s hs => by
    let p := d.place (fun k => .temporary (s.next + k)) [] #[]
    have hcall := h (view.extend s.next p.2) p.1 n r { s with next := s.next + p.2.size } hs
    exact hcall.of_bytes rfl
  | .suspended body, ha => fun n r s hs => by
    have hbody := cuts_runAll h view body ha n r { s with sharing := false } hs
    exact (hbody.after (.sharing s.sharing)).of_bytes rfl
  | .container owner major length body, ha => fun n r s hs => by
    by_cases h0 : length = 0
    · simp only [run, if_pos h0]
      exact Run.Cuts.put _ n r s hs
    · have howner : owner.ident (s.limited n r) =
          ((owner.ident s).1, (owner.ident s).2.limited n r) := by
        cases owner <;> rfl
      have hsink : (owner.ident s).2.sink = s.sink := by cases owner <;> rfl
      rw [run_container h0, run_container h0, howner]
      have hbody := (cuts_runAll h view body ha).admitted (Head.ofLength major length)
        (owner.ident s).1 n r (owner.ident s).2 (hsink ▸ hs)
      exact hbody.of_bytes (congrArg Sink.bytes hsink)
  | .attempt body, ha => absurd ha (by simp [attempts])
  | .fail e, _ => fun _ _ _ hs => .idle .id hs _
  | .observe, _ => fun _ _ s hs => .idle (.note (.sharing s.sharing)) hs _

/-- Operations in order are cut short, and none is run after the cut. -/
theorem cuts_runAll (h : ∀ view v, (call view v).Cuts) (view : View) :
    ∀ ops : List Op, anyAttempts ops = false → Run.Cuts (runAll call view ops)
  | [], _ => fun _ _ _ hs => .idle .id hs _
  | op :: ops, ha => by
    obtain ⟨hop, hops⟩ := Bool.or_eq_false_iff.mp ha
    exact (cuts_run h view op hop).andThen (cuts_runAll h view ops hops)

end

end Op

/-- **A call is cut short**, with functions of the caller that attempt nothing. -/
theorem cuts_encodeValue {o : Options}
    (ho : ∀ entry ∈ o.overrides, ∀ settings view v, Op.anyAttempts (entry.2 settings view v) = false)
    (limit : Nat) : ∀ view v, Run.Cuts (encodeValue o.table o.toSettings limit view v) := by
  induction limit with
  | zero => exact fun _ _ _ _ _ hs => .idle .id hs _
  | succ limit ih =>
    intro view v n r s hs
    have hbegin := State.Inert.beginDocument
    have hroom : s.beginDocument.sink.room = none := (hbegin.room s).trans hs
    cases hfound : o.table.resolve view v with
    | none =>
      rw [encodeValue_of_resolve_none hfound, encodeValue_of_resolve_none hfound, hbegin.limited]
      have hrecord : (Event.dispatched (view.typeKey v) none).bytes = [] := rfl
      exact (State.Cut.idle (.record hrecord) hroom _).of_bytes (hbegin.bytes s)
    | some entry =>
      obtain ⟨key, f⟩ := entry
      have hf : Op.anyAttempts (f o.toSettings view v) = false := by
        rcases o.exists_of_resolve hfound with ⟨b, rfl⟩ | ⟨key', hmem⟩
        · exact b.anyAttempts_ops o.toSettings view v
        · exact ho _ hmem o.toSettings view v
      rw [encodeValue_of_some hfound, encodeValue_of_some hfound, hbegin.limited]
      have hops := Op.cuts_runAll ih view _ hf n r
        (s.beginDocument.descend (view.typeKey v) key) hroom
      exact (hops.after .ascend).of_bytes ((State.bytes_descend _ _ _).trans (hbegin.bytes s))

/-! ### Documents -/

/-- The document of a new encoder is cut short. -/
theorem Encoder.cut_encode {o : Options}
    (ho : ∀ entry ∈ o.overrides, ∀ settings view v, Op.anyAttempts (entry.2 settings view v) = false)
    {g : Graph} {v : Value} {sink : Sink} (hroom : sink.room = none) {next n : Nat} {r : Refusal}
    {full cut : Outcome × Encoder} (hfull : (ofOptions o sink next).encode g v = full)
    (hcut : (ofOptions o { sink with room := some n, refusal := r } next).encode g v = cut) :
    State.Cut n r (.initial sink o.sharing next) (full.1, full.2.state) (cut.1, cut.2.state) := by
  have hcuts := cuts_encodeValue ho (nestingLimit g + v.tagDepth) g.view v n r
    (.initial sink o.sharing next) hroom
  have hlimited : (State.initial sink o.sharing next).limited n r =
      .initial { sink with room := some n, refusal := r } o.sharing next := rfl
  rw [hlimited] at hcuts
  -- The calls are given names, so that the limit of nesting is not counted down.
  obtain ⟨p, hp⟩ : ∃ p, encodeValue o.table o.toSettings (nestingLimit g + v.tagDepth) g.view v
      (.initial sink o.sharing next) = p := ⟨_, rfl⟩
  obtain ⟨q, hq⟩ : ∃ q, encodeValue o.table o.toSettings (nestingLimit g + v.tagDepth) g.view v
      (.initial { sink with room := some n, refusal := r } o.sharing next) = q := ⟨_, rfl⟩
  rw [hp, hq] at hcuts
  rw [← hfull, ← hcut, encode_ofOptions hp, encode_ofOptions hq]
  exact hcuts

/-- **What comes to the same without a limit comes to the same in every sink**: a sink with a limit is
one without that is given as much room. -/
theorem Encoder.encode_agree {o o' : Options}
    (ho : ∀ entry ∈ o.overrides, ∀ settings view v, Op.anyAttempts (entry.2 settings view v) = false)
    (ho' : ∀ entry ∈ o'.overrides, ∀ settings view v,
      Op.anyAttempts (entry.2 settings view v) = false)
    {g g' : Graph} {v v' : Value} {next next' : Nat}
    (h : ∀ {sink : Sink} {p p' : Outcome × Encoder}, sink.room = none →
      (ofOptions o sink next).encode g v = p → (ofOptions o' sink next').encode g' v' = p' →
        p'.1 = p.1 ∧ p'.2.state.sink.bytes = p.2.state.sink.bytes)
    {sink : Sink} {q q' : Outcome × Encoder} (hq : (ofOptions o sink next).encode g v = q)
    (hq' : (ofOptions o' sink next').encode g' v' = q') :
    q'.1 = q.1 ∧ q'.2.state.sink.bytes = q.2.state.sink.bytes := by
  cases hroom : sink.room with
  | none => exact h hroom hq hq'
  | some n =>
    have hfull : Sink.room { sink with room := none } = none := rfl
    have hsink : sink =
        { { sink with room := none } with room := some n, refusal := sink.refusal } := by
      rw [← hroom]
    rw [hsink] at hq hq'
    -- The runs are given names, so that the limit of nesting is not counted down.
    obtain ⟨p, hp⟩ : ∃ p, (ofOptions o { sink with room := none } next).encode g v = p := ⟨_, rfl⟩
    obtain ⟨p', hp'⟩ : ∃ p', (ofOptions o' { sink with room := none } next').encode g' v' = p' :=
      ⟨_, rfl⟩
    obtain ⟨hout, hbytes⟩ := h hfull hp hp'
    exact (cut_encode ho hfull hp hq).agree (cut_encode ho' hfull hp' hq') rfl hout hbytes

/-- **A sink that becomes full has taken the first bytes of the document, and no others.** With any
options whose functions attempt nothing, let a document be encoded into a sink without a limit. In a
sink that takes `n` bytes in all, if they are enough then the run ends in the same way and has
written the same; if not, it ends in the error of the sink and has written the first `n` bytes. The
error is one of input and output, whichever way the sink refuses. -/
theorem encode_limited {o : Options}
    (ho : ∀ entry ∈ o.overrides, ∀ settings view v, Op.anyAttempts (entry.2 settings view v) = false)
    (g : Graph) (v : Value) (n : Nat) (r : Refusal) :
    let full := encode o g v .unlimited
    let cut := encode o g v (.limited n r)
    (full.2.bytes.length ≤ n → cut.1 = full.1 ∧ cut.2.bytes = full.2.bytes) ∧
      (n < full.2.bytes.length → cut.1 = .failed r.error ∧ cut.2.bytes = full.2.bytes.take n) ∧
      ∃ text, r.error = .io text := by
  intro full cut
  have herror : ∃ text, r.error = .io text := by cases r <;> exact ⟨_, rfl⟩
  have hroom : Sink.unlimited.room = none := rfl
  obtain ⟨p, hp⟩ : ∃ p, (Encoder.ofOptions o .unlimited).encode g v = p := ⟨_, rfl⟩
  obtain ⟨q, hq⟩ : ∃ q, (Encoder.ofOptions o (.limited n r)).encode g v = q := ⟨_, rfl⟩
  have hfull : full = (p.1, p.2.state.sink) := encode_of_encoder hp
  have hcut : cut = (q.1, q.2.state.sink) := encode_of_encoder hq
  rw [hfull, hcut]
  obtain ⟨bs, hbytes, hfits, hlong⟩ := (Encoder.cut_encode ho hroom hp hq).exists_written
  obtain rfl : p.2.state.sink.bytes = bs := hbytes
  exact ⟨hfits, hlong, herror⟩

/-- A function of the caller writes texts as a container with a number in it. There is room for the
first byte of the head of the number. -/
theorem encode_limited_inside_head :
    let f : EncodeFn := fun _ _ _ =>
      [.container (.existing (.stored 7)) .array 1 [.value (.integer 1000)], .write [1, 2]]
    let o : Options := { sharing := true, overrides := [(.kind .text, f)] }
    let full := encode o .empty (.text "a") .unlimited
    let cut := encode o .empty (.text "a") (.limited 4 .stalls)
    (∀ entry ∈ o.overrides, ∀ settings view v, Op.anyAttempts (entry.2 settings view v) = false) ∧
      full.1 = .done ∧ full.2.bytes = [0xD8, 28, 0x81, 0x19, 0x03, 0xE8, 1, 2] ∧
      cut.1 = .failed (.io "failed to write whole buffer") ∧
      cut.2.bytes = [0xD8, 28, 0x81, 0x19] := by
  intro f o full cut
  have ho : ∀ entry ∈ o.overrides, ∀ settings view v,
      Op.anyAttempts (entry.2 settings view v) = false := by
    intro entry hentry settings view v
    obtain rfl := List.mem_singleton.mp hentry
    rfl
  have hdone : full.1 = .done := by decide +kernel
  have hbytes : full.2.bytes = [0xD8, 28, 0x81, 0x19, 0x03, 0xE8, 1, 2] := by decide +kernel
  have hlong : 4 < full.2.bytes.length := by
    rw [hbytes]
    decide
  obtain ⟨-, hshort, -⟩ := encode_limited ho .empty (.text "a") 4 .stalls
  obtain ⟨hcut, htaken⟩ := hshort hlong
  refine ⟨ho, hdone, hbytes, hcut, htaken.trans ?_⟩
  rw [show (encode o .empty (.text "a") .unlimited).2.bytes = _ from hbytes]
  rfl

end CborGraph
