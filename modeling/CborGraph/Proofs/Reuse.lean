import CborGraph.Proofs.Restoring

/-!
# Using an encoder again

What an encoder has written and noted before does not matter to what it does next: a run is
`Run.Oblivious`, it does the same after any history and leaves the history as it is. Between the
steps of a session no container is open and no call is in progress, by `Encoder.kept_run`, and
the marks are forgotten when a document begins.

Main statement: `Encoder.encode_reused`, after any session an encoder encodes as a new one does.
-/

namespace CborGraph

/-! ### Histories -/

/-- The state with these events and notes before its own, most recent first. -/
def State.after (past : List Event) (told : List Note) (s : State) : State :=
  { s with sink := { s.sink with journal := s.sink.journal ++ past }, notes := s.notes ++ told }

/-- After any history the run does the same, and leaves the history as it is. -/
def Run.Oblivious (r : Run) : Prop :=
  ∀ past told s, r (s.after past told) = ((r s).1, (r s).2.after past told)

namespace State

variable (past : List Event) (told : List Note) (s : State)

@[simp] theorem bytes_after :
    (s.after past told).sink.bytes = past.reverse.flatMap Event.bytes ++ s.sink.bytes := by
  simp [after, Sink.bytes]

theorem beginDocument_after : (s.after past told).beginDocument = s.beginDocument.after past told := by
  by_cases h : s.depth = 0 <;> simp [beginDocument, after, h]

theorem oblivious_put (e : Event) : Run.Oblivious (put e) := by
  intro past told s
  unfold put Sink.put after
  cases hroom : s.sink.room with
  | none => rfl
  | some n => by_cases h : e.bytes.length ≤ n <;> simp [h]

end State

namespace Run.Oblivious

theorem andThen {r k : Run} (hr : r.Oblivious) (hk : k.Oblivious) : (r.andThen k).Oblivious := by
  intro past told s
  unfold Run.andThen
  rw [hr past told s]
  rcases r s with ⟨_ | e | _, t⟩
  · exact hk past told t
  · rfl
  · rfl

theorem enclosed {body : Run} (h : body.Oblivious) (head : Bytes) (id : Ident) :
    (Run.enclosed head id body).Oblivious := by
  refine (State.oblivious_put _).andThen fun past told s => ?_
  have henter : (s.after past told).enter id = (s.enter id).after past told := rfl
  simp only [henter, h past told]
  rfl

theorem admitted {body : Run} (h : body.Oblivious) (head : Bytes) (id : Ident) :
    (Run.admitted head id body).Oblivious := by
  intro past told s
  have ha : (s.after past told).admission id = s.admission id := rfl
  unfold Run.admitted
  rw [ha]
  cases s.admission id with
  | marked index => exact State.oblivious_put _ past told s
  | cyclic => rfl
  | plain => exact h.enclosed head id past told s
  | fresh => exact (State.oblivious_put _).andThen (h.enclosed head id) past told (s.mark id)

end Run.Oblivious

namespace Op

variable {call : View → Value → Run}

mutual

/-- **An operation is oblivious** if the calls that it makes are. -/
theorem oblivious_run (h : ∀ view v, (call view v).Oblivious) (view : View) :
    ∀ op : Op, Run.Oblivious (run call view op)
  | .write bs => State.oblivious_put _
  | .encode d => fun past told s => by
    let p := d.place (fun k => .temporary (s.next + k)) [] #[]
    simp only [run]
    exact h (view.extend s.next p.2) p.1 past told { s with next := s.next + p.2.size }
  | .suspended body => fun past told s => by
    simp only [run]
    have hoff : { s.after past told with sharing := false } =
        State.after past told { s with sharing := false } := rfl
    rw [hoff, oblivious_runAll h view body past told]
    rfl
  | .container owner major length body => fun past told s => by
    by_cases h0 : length = 0
    · simp only [run, if_pos h0]
      exact State.oblivious_put _ past told s
    · have howner : owner.ident (s.after past told) =
          ((owner.ident s).1, (owner.ident s).2.after past told) := by
        cases owner <;> rfl
      rw [run_container h0, run_container h0, howner]
      exact (oblivious_runAll h view body).admitted _ _ past told _
  | .attempt body => fun past told s => by
    simp only [run]
    rw [oblivious_runAll h view body past told s]
    rcases runAll call view body s with ⟨_ | e | _, t⟩ <;> rfl
  | .fail e => fun _ _ _ => rfl
  | .observe => fun _ _ _ => rfl

/-- Operations in order are oblivious. -/
theorem oblivious_runAll (h : ∀ view v, (call view v).Oblivious) (view : View) :
    ∀ ops : List Op, Run.Oblivious (runAll call view ops)
  | [] => fun _ _ _ => rfl
  | op :: ops => (oblivious_run h view op).andThen (oblivious_runAll h view ops)

end

end Op

/-- **A call is oblivious**, with any table. -/
theorem oblivious_encodeValue (table : Table EncodeFn) (settings : Settings) (limit : Nat) :
    ∀ view v, Run.Oblivious (encodeValue table settings limit view v) := by
  induction limit with
  | zero => exact fun _ _ _ _ _ => rfl
  | succ limit ih =>
    intro view v past told s
    cases hfound : table.resolve view v with
    | none =>
      rw [encodeValue_of_resolve_none hfound, encodeValue_of_resolve_none hfound,
        State.beginDocument_after]
      rfl
    | some entry =>
      obtain ⟨key, f⟩ := entry
      have hdescend : ∀ t : State, (t.after past told).descend (view.typeKey v) key =
          (t.descend (view.typeKey v) key).after past told := fun _ => rfl
      rw [encodeValue_of_some hfound, encodeValue_of_some hfound, State.beginDocument_after,
        hdescend]
      simp only [Op.oblivious_runAll ih view _ past told _]
      rfl

/-- A call depends on the marks only inside another. -/
theorem encodeValue_beginDocument (table : Table EncodeFn) (settings : Settings) {limit : Nat}
    (h0 : limit ≠ 0) (view : View) (v : Value) (s : State) :
    encodeValue table settings limit view v s.beginDocument =
      encodeValue table settings limit view v s := by
  have hbegin : s.beginDocument.beginDocument = s.beginDocument := by
    by_cases h : s.depth = 0 <;> simp [State.beginDocument, h]
  obtain ⟨limit, rfl⟩ := Nat.exists_eq_succ_of_ne_zero h0
  cases hfound : table.resolve view v with
  | none => rw [encodeValue_of_resolve_none hfound, encodeValue_of_resolve_none hfound, hbegin]
  | some entry => rw [encodeValue_of_some hfound, encodeValue_of_some hfound, hbegin]

/-! ### Sessions -/

namespace Encoder

/-- The encoders with the options `o` between the steps of a session. Each step may be on
another graph. -/
inductive Session (o : Options) : Encoder → Prop
  /-- A new encoder. -/
  | new (sink : Sink) (next : Nat) : Session o (.ofOptions o sink next)
  /-- After a document, however it ended. -/
  | encode {e : Encoder} (he : Session o e) (g : Graph) (v : Value) : Session o (e.encode g v).2
  /-- After operations outside documents, however they ended. -/
  | perform {e : Encoder} (he : Session o e) (g : Graph) (ops : List Op)
      (hret : e.Returns (nestingLimit g) g.view ops) : Session o (e.perform g ops).2
  /-- After the notes were taken away. -/
  | clearNotes {e : Encoder} (he : Session o e) : Session o e.clearNotes

/-- Between steps no call is in progress and no container is open, and sharing, the settings and
the table are as at the start. -/
structure Idle (o : Options) (e : Encoder) : Prop where
  settings : e.settings = o.toSettings
  table : e.table = o.table
  sharing : e.state.sharing = o.sharing
  opened : e.state.opened = []
  depth : e.state.depth = 0

theorem Idle.of_kept {o : Options} {e e' : Encoder} (h : Idle o e) (hs : e'.settings = e.settings)
    (ht : e'.table = e.table) (hkept : e.state.Kept e'.state) : Idle o e' where
  settings := hs.trans h.settings
  table := ht.trans h.table
  sharing := hkept.sharing.trans h.sharing
  opened := by
    have hsound : e.state.Sound := fun _ id hid => absurd hid (by simp [h.opened])
    exact (hkept.opened hsound).trans h.opened
  depth := hkept.depth.trans h.depth

/-- **Every session is idle between its steps**, by induction on the session. -/
theorem Session.idle {o : Options} {e : Encoder} (h : Session o e) : Idle o e := by
  induction h with
  | new sink next => exact ⟨rfl, rfl, rfl, rfl, rfl⟩
  | @encode e _ g v ih =>
    have hs : (e.encode g v).2.settings = e.settings := by rw [Encoder.encode, settings_withState]
    have ht : (e.encode g v).2.table = e.table := by rw [Encoder.encode, table_withState]
    exact ih.of_kept hs ht (kept_encode (fun _ => ih.opened) g v)
  | perform _ g ops hret ih =>
    rw [perform_eq_run]
    exact ih.of_kept rfl rfl (kept_run hret)
  | clearNotes _ ih => exact ⟨ih.settings, ih.table, ih.sharing, ih.opened, ih.depth⟩

/-- A new encoder with the options, on a sink in the condition of this one's that has nothing
written to it. It numbers new containers as this one does. -/
def renewed (o : Options) (e : Encoder) : Encoder :=
  .ofOptions o { e.state.sink with journal := [] } e.state.next

/-- When a document begins, an idle encoder is a new one with a history. -/
theorem Idle.beginDocument {o : Options} {e : Encoder} (h : Idle o e) :
    e.state.beginDocument = (renewed o e).state.after e.state.sink.journal e.state.notes := by
  have hsharing := h.sharing
  have hopened := h.opened
  have hdepth := h.depth
  obtain ⟨settings, table, ⟨⟨room, refusal, journal⟩, sharing, marks, opened, depth, next, notes⟩⟩ := e
  subst hsharing hopened hdepth
  rfl

/-- A call of an idle encoder is one of a new one, after the history. -/
theorem Idle.encodeValue_eq {o : Options} {e : Encoder} (h : Idle o e) {limit : Nat} (h0 : limit ≠ 0)
    (view : View) (v : Value) :
    (encodeValue e.table e.settings limit view v e.state).1 =
        (encodeValue (renewed o e).table (renewed o e).settings limit view v (renewed o e).state).1 ∧
      (encodeValue e.table e.settings limit view v e.state).2 =
        (encodeValue (renewed o e).table (renewed o e).settings limit view v (renewed o e).state).2.after
          e.state.sink.journal e.state.notes := by
  have htable : e.table = (renewed o e).table := h.table
  have hsettings : e.settings = (renewed o e).settings := h.settings
  rw [← encodeValue_beginDocument e.table e.settings h0, h.beginDocument, htable, hsettings,
    oblivious_encodeValue]
  exact ⟨rfl, rfl⟩

/-- **An encoder that was used before encodes as a new one.** After any session, with documents
that failed or not and with operations outside documents, a document ends as with a new
encoder and the same bytes are written after those that were there. Nothing is left of the session but its
history: for the rest the encoder is in the state that the new one is in. -/
theorem encode_reused {o : Options} {e : Encoder} (h : Session o e) (g : Graph) (v : Value) :
    (e.encode g v).1 = ((renewed o e).encode g v).1 ∧
      (e.encode g v).2.state.sink.bytes =
        e.state.sink.bytes ++ ((renewed o e).encode g v).2.state.sink.bytes ∧
      (e.encode g v).2.state =
        ((renewed o e).encode g v).2.state.after e.state.sink.journal e.state.notes := by
  have h0 : nestingLimit g + v.tagDepth ≠ 0 := by
    unfold nestingLimit allowance
    omega
  obtain ⟨houtcome, hcall⟩ := h.idle.encodeValue_eq h0 g.view v
  have hstate : (e.encode g v).2.state =
      ((renewed o e).encode g v).2.state.after e.state.sink.journal e.state.notes := by
    rw [encode, encode, state_withState, state_withState, hcall]
  refine ⟨?_, ?_, hstate⟩
  · rw [encode, encode, outcome_withState, outcome_withState, houtcome]
  · rw [hstate, State.bytes_after]
    rfl

/-- Two documents fail, one of them in a function of the caller while sharing is suspended, and then a
container is written outside documents. The container is changed, and it is marked and written
in full in the document after that. -/
theorem encode_reused_failed_twice :
    let f : EncodeFn := fun _ _ _ =>
      [.suspended [.container (.existing (.stored 1)) .map 1 [.fail .naiveDateTime]]]
    let o : Options := { sharing := true, overrides := [(.kind .text, f)] }
    let g : Graph := ⟨#[.array [.text "a"], .array [.container (.stored 2)], .custom ⟨"T", [], none, none⟩]⟩
    let changed : Graph := g.update (.stored 0) fun _ => .array [.integer 1, .container (.stored 0)]
    let ops : List Op := [.container (.existing (.stored 0)) .array 1 Op.null]
    let e₁ := (Encoder.ofOptions o .unlimited).encode g (.container (.stored 0))
    let e₂ := e₁.2.encode g (.container (.stored 1))
    let e₃ := e₂.2.perform g ops
    let r := e₃.2.encode changed (.container (.stored 0))
    Session o e₃.2 ∧ e₁.1 = .failed .naiveDateTime ∧ e₂.1 = .failed (.unsupportedType "T") ∧
      r.1 = .done ∧
      r.2.state.sink.bytes = e₃.2.state.sink.bytes ++ [0xD8, 28, 0x82, 1, 0xD8, 29, 0] ∧
      r.2.state.marks = [(.stored 0, 0)] := by
  intro f o g changed ops e₁ e₂ e₃ r
  have hret : e₂.2.Returns (nestingLimit g) g.view ops := by decide +kernel
  have hsession : Session o e₃.2 :=
    (((Session.new .unlimited 0).encode g _).encode g _).perform g ops hret
  have hfirst : e₁.1 = .failed .naiveDateTime := by decide +kernel
  have hsecond : e₂.1 = .failed (.unsupportedType "T") := by decide +kernel
  have hdone : ((renewed o e₃.2).encode changed (.container (.stored 0))).1 = .done := by
    decide +kernel
  have hwritten : ((renewed o e₃.2).encode changed (.container (.stored 0))).2.state.sink.bytes =
      [0xD8, 28, 0x82, 1, 0xD8, 29, 0] := by decide +kernel
  have hmarks : ((renewed o e₃.2).encode changed (.container (.stored 0))).2.state.marks =
      [(.stored 0, 0)] := by decide +kernel
  clear_value e₃
  obtain ⟨houtcome, hbytes, hstate⟩ := encode_reused hsession changed (.container (.stored 0))
  refine ⟨hsession, hfirst, hsecond, houtcome.trans hdone, ?_, ?_⟩
  · rw [← hwritten]
    exact hbytes
  · have hleft := congrArg State.marks hstate
    rw [← hmarks]
    exact hleft

end Encoder

end CborGraph
