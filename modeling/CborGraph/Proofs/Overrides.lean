import CborGraph.Proofs.Dispatching
import CborGraph.Proofs.Restoring

/-!
# Functions of the caller that are not consulted

The journal tells for which values a table was asked and what it found, so also for those that
encoder functions make themselves: the text of a date, the array of a decimal, the bytes of a large
integer. If a run with the built-in table asks for nothing that the caller's own functions were
registered for, then the run with them is the same, although their table has other entries, and
more. `Run.Mirrors` says so of two runs from the same state, and the induction goes over operations
and calls.

Main statement: `Encoder.encode_overrides`.
-/

namespace CborGraph

/-! ### Events -/

/-- A value was passed on whose exact key is one of these, or for which the entry under one of these
was found. -/
def Event.consults (keys : List TypeKey) : Event → Bool
  | dispatched key found => keys.contains key || found.any keys.contains
  | _ => false

/-- If the keys of the caller's functions are not consulted for a value, the functions make no
difference to it. -/
theorem Options.resolve_of_consults {o : Options} {view : View} {v : Value}
    (h : Event.consults (o.overrides.map (·.1)) (.dispatched (view.typeKey v)
      ((builtinTable.resolve view v).map (·.1))) = false) :
    o.table.resolve view v = builtinTable.resolve view v := by
  rw [Event.consults, Bool.or_eq_false_iff, Option.any_eq_false] at h
  refine resolve_table ?_ fun key hkey hfound => ?_
  · simpa using h.1
  · have hnot := h.2 key hfound
    rw [List.contains_iff_mem.mpr hkey] at hnot
    cases hnot

/-! ### Two runs -/

/-- From every state the first run adds events to the journal, and if all of them are as `P` says,
the second run does the same. -/
def Run.Mirrors (P : Event → Prop) (r r' : Run) : Prop :=
  ∀ s, ∃ past, (r s).2.sink.journal = past ++ s.sink.journal ∧ ((∀ e ∈ past, P e) → r' s = r s)

namespace Run.Mirrors

variable {P : Event → Prop} {r r' k k' : Run}

/-- A write mirrors itself, also if it is refused. -/
theorem put (e : Event) : Run.Mirrors P (State.put e) (State.put e) := by
  intro s
  have hone : ∃ e', (s.sink.put e).2.journal = e' :: s.sink.journal := by
    unfold Sink.put
    cases s.sink.room with
    | none => exact ⟨e, rfl⟩
    | some n => by_cases h : e.bytes.length ≤ n <;> simp [h]
  obtain ⟨e', he'⟩ := hone
  refine ⟨[e'], ?_, fun _ => rfl⟩
  rw [State.put_snd]
  exact he'

theorem andThen (h : r.Mirrors P r') (hk : k.Mirrors P k') :
    (r.andThen k).Mirrors P (r'.andThen k') := by
  intro s
  obtain ⟨past, hpast, hsame⟩ := h s
  unfold Run.andThen
  rcases hr : r s with ⟨_ | e | _, t⟩
  · obtain ⟨later, hlater, hsame'⟩ := hk t
    rw [hr] at hpast hsame
    refine ⟨later ++ past, ?_, fun hP => ?_⟩
    · rw [List.append_assoc, ← hpast]
      exact hlater
    · rw [hsame fun e he => hP e (List.mem_append_right _ he)]
      exact hsame' fun e he => hP e (List.mem_append_left _ he)
  · rw [hr] at hpast hsame
    exact ⟨past, hpast, fun hP => by rw [hsame hP]⟩
  · rw [hr] at hpast hsame
    exact ⟨past, hpast, fun hP => by rw [hsame hP]⟩

theorem enclosed (h : r.Mirrors P r') (head : Bytes) (id : Ident) :
    (Run.enclosed head id r).Mirrors P (Run.enclosed head id r') := by
  refine (put _).andThen fun s => ?_
  obtain ⟨past, hpast, hsame⟩ := h (s.enter id)
  refine ⟨.left id :: (past ++ [.entered id]), ?_, fun hP => ?_⟩
  · change .left id :: (r (s.enter id)).2.sink.journal = _
    rw [hpast]
    simp [State.enter, State.record]
  · rw [hsame fun e he => hP e (by simp [he])]

theorem admitted (h : r.Mirrors P r') (head : Bytes) (id : Ident) :
    (Run.admitted head id r).Mirrors P (Run.admitted head id r') := by
  intro s
  unfold Run.admitted
  cases s.admission id with
  | marked index => exact put _ s
  | cyclic => exact ⟨[], rfl, fun _ => rfl⟩
  | plain => exact h.enclosed head id s
  | fresh => exact (put _).andThen (h.enclosed head id) (s.mark id)

end Run.Mirrors

namespace Op

variable {P : Event → Prop} {call call' : View → Value → Run}

mutual

/-- **An operation mirrors another run of it** if the calls that it makes do. -/
theorem mirrors_run (h : ∀ view v, (call view v).Mirrors P (call' view v)) (view : View) :
    ∀ op : Op, Run.Mirrors P (run call view op) (run call' view op)
  | .write bs => .put _
  | .encode d => fun s => by
    simp only [run]
    exact h _ _ { s with next := _ }
  | .suspended body => fun s => by
    obtain ⟨past, hpast, hsame⟩ := mirrors_runAll h view body { s with sharing := false }
    simp only [run]
    exact ⟨past, hpast, fun hP => by rw [hsame hP]⟩
  | .container owner major length body => fun s => by
    by_cases h0 : length = 0
    · rw [run, run, if_pos h0, if_pos h0]
      exact Run.Mirrors.put _ s
    · rw [run_container h0, run_container h0]
      obtain ⟨past, hpast, hsame⟩ := (mirrors_runAll h view body).admitted _ _ (owner.ident s).2
      have howner : (owner.ident s).2.sink = s.sink := by cases owner <;> rfl
      exact ⟨past, by rw [hpast, howner], hsame⟩
  | .attempt body => fun s => by
    obtain ⟨past, hpast, hsame⟩ := mirrors_runAll h view body s
    simp only [run]
    refine ⟨past, ?_, fun hP => by rw [hsame hP]⟩
    rcases hrun : runAll call view body s with ⟨_ | e | _, t⟩ <;> rw [hrun] at hpast <;> exact hpast
  | .fail e => fun s => ⟨[], rfl, fun _ => rfl⟩
  | .observe => fun s => ⟨[], rfl, fun _ => rfl⟩

/-- Operations in order mirror another run of them. -/
theorem mirrors_runAll (h : ∀ view v, (call view v).Mirrors P (call' view v)) (view : View) :
    ∀ ops : List Op, Run.Mirrors P (runAll call view ops) (runAll call' view ops)
  | [] => fun _ => ⟨[], rfl, fun _ => rfl⟩
  | op :: ops => (mirrors_run h view op).andThen (mirrors_runAll h view ops)

end

end Op

/-- **A call mirrors one with another table** that finds the same for each value that is passed on,
as far as the events of the call tell. -/
theorem mirrors_encodeValue {P : Event → Prop} {table table' : Table EncodeFn}
    (h : ∀ view v, P (.dispatched (View.typeKey view v) ((table.resolve view v).map (·.1))) →
      table'.resolve view v = table.resolve view v) (settings : Settings) (limit : Nat) :
    ∀ view v, Run.Mirrors P (encodeValue table settings limit view v)
      (encodeValue table' settings limit view v) := by
  induction limit with
  | zero => exact fun view v s => ⟨[], rfl, fun _ => rfl⟩
  | succ limit ih =>
    intro view v s
    have hfind := h view v
    cases hfound : table.resolve view v with
    | none =>
      rw [encodeValue_of_resolve_none hfound]
      refine ⟨[.dispatched (view.typeKey v) none], ?_, fun hP => ?_⟩
      · simp [State.record]
      · rw [hfound] at hfind
        rw [encodeValue_of_resolve_none (hfind (hP _ List.mem_cons_self))]
    | some entry =>
      obtain ⟨key, f⟩ := entry
      obtain ⟨past, hpast, hsame⟩ := Op.mirrors_runAll ih view (f settings view v)
        (s.beginDocument.descend (view.typeKey v) key)
      rw [encodeValue_of_some hfound]
      refine ⟨past ++ [.dispatched (view.typeKey v) (some key)], ?_, fun hP => ?_⟩
      · simp only [State.ascend, hpast]
        simp [State.descend, State.record]
      · rw [hfound] at hfind
        rw [encodeValue_of_some (hfind (hP _ (by simp)))]
        rw [hsame fun e he => hP e (List.mem_append_left _ he)]

/-! ### Documents -/

namespace Encoder

/-- **Functions of the caller only affect the values that are dispatched to them.** Let a document be
encoded with the built-in table, with any sink and with sharing on or off, such that for none of the
values that are passed on, those that encoder functions make themselves included, one of the
caller's functions is consulted. Then it ends in the same way with these functions, and leaves the
same state: the same bytes, marks and references are in the journal, with the same indexes. -/
theorem encode_overrides (o : Options) (sink : Sink) (next : Nat) (g : Graph) (v : Value)
    (past : List Event)
    (hpast : ((ofOptions { o with overrides := [] } sink next).encode g v).2.state.sink.journal =
      past ++ sink.journal)
    (hconsults : ∀ e ∈ past, e.consults (o.overrides.map (·.1)) = false) :
    ((ofOptions o sink next).encode g v).1 =
        ((ofOptions { o with overrides := [] } sink next).encode g v).1 ∧
      ((ofOptions o sink next).encode g v).2.state =
        ((ofOptions { o with overrides := [] } sink next).encode g v).2.state := by
  have htable : ({ o with overrides := [] } : Options).table = builtinTable :=
    Options.table_of_overrides rfl
  obtain ⟨r, hr⟩ : ∃ r, encodeValue builtinTable o.toSettings (nestingLimit g + v.tagDepth) g.view v
    (.initial sink o.sharing next) = r := ⟨_, rfl⟩
  obtain ⟨past', hpast', hsame⟩ :=
    mirrors_encodeValue (P := fun e => e.consults (o.overrides.map (·.1)) = false)
      (fun _ _ h => Options.resolve_of_consults h) o.toSettings (nestingLimit g + v.tagDepth) g.view v
      (.initial sink o.sharing next)
  rw [hr] at hpast' hsame
  rw [← htable] at hr
  rw [encode_ofOptions (o := { o with overrides := [] }) hr] at hpast ⊢
  have hsuffix : past' = past := List.append_cancel_right (hpast'.symm.trans hpast)
  rw [encode_ofOptions (hsame (hsuffix ▸ hconsults))]
  exact ⟨rfl, rfl⟩

/-- Functions for one type of the caller's, for regular expressions and for all that can be read as a
sequence make no difference to a document with a decimal, whose array has an exact key of its own,
and with a value of another type that can be read as a mapping and is referred to. -/
theorem encode_overrides_elsewhere :
    let f : EncodeFn := fun _ _ _ => [.fail .cyclicStructure]
    let o : Options :=
      { sharing := true, overrides := [(.custom "T", f), (.kind .regex, f), (.capability .sequence, f)] }
    let g : Graph := ⟨#[
      .array [.container (.stored 1), .decimal (.finite (.ofInt 15) (-1)), .container (.stored 1)],
      .custom ⟨"U", [], none, some [(.integer 1, .bool true)]⟩]⟩
    let plain := (ofOptions { o with overrides := [] } .unlimited).encode g (.container (.stored 0))
    let r := (ofOptions o .unlimited).encode g (.container (.stored 0))
    (∀ e ∈ plain.2.state.sink.journal, e.consults (o.overrides.map (·.1)) = false) ∧
      r.1 = plain.1 ∧ r.2.state = plain.2.state ∧ plain.1 = .done ∧
      r.2.state.sink.bytes =
        [0xD8, 28, 0x83, 0xD8, 28, 0xA1, 1, 0xF5, 0xC4, 0x82, 0x20, 15, 0xD8, 29, 1] := by
  intro f o g plain r
  have hnone : ∀ e ∈ plain.2.state.sink.journal, e.consults (o.overrides.map (·.1)) = false := by
    decide +kernel
  have hdone : plain.1 = .done := by decide +kernel
  have hbytes : plain.2.state.sink.bytes =
      [0xD8, 28, 0x83, 0xD8, 28, 0xA1, 1, 0xF5, 0xC4, 0x82, 0x20, 15, 0xD8, 29, 1] := by
    decide +kernel
  have hsame := encode_overrides o .unlimited 0 g (.container (.stored 0))
  -- From here on the two runs are not evaluated.
  have hplain : (ofOptions { o with overrides := [] } .unlimited).encode g (.container (.stored 0)) =
    plain := rfl
  have hr : (ofOptions o .unlimited).encode g (.container (.stored 0)) = r := rfl
  rw [hplain, hr] at hsame
  clear_value plain r
  obtain ⟨houtcome, hstate⟩ := hsame _ (List.append_nil _).symm hnone
  refine ⟨hnone, houtcome, hstate, hdone, ?_⟩
  rw [hstate, hbytes]

end Encoder

end CborGraph
