import CborGraph.Proofs.Calls
import CborGraph.Proofs.WalkRun

/-!
# What the journal tells

The journal of a sink says which of the bytes are marks and references. A run is `State.Quiet` if
it has neither marked a container nor referred to one. While sharing is off every run is quiet,
whatever the caller's own encoder functions do, `State.frame_unmarked`; and a scalar is written
by a quiet run also if sharing is on, `quiet_encodeValue_scalar`.

`State.Tells` reads the events of a run in another way than as the bytes that were written:
without the marks, and with what a container is in full in place of a reference to it.
-/

namespace CborGraph

/-- The event has nothing to do with sharing. -/
def Event.plain : Event → Bool
  | marked _ => false
  | referred _ _ => false
  | _ => true

namespace State

variable {s t u : State}

/-- From `s` to `t` nothing happened but plain events. -/
def Quiet (s t : State) : Prop :=
  ∃ past, t.sink.journal = past ++ s.sink.journal ∧ ∀ e ∈ past, e.plain = true

namespace Quiet

theorem of_eq (h : t.sink.journal = s.sink.journal) : Quiet s t := ⟨[], h, by simp⟩

theorem trans (h : Quiet s t) (h' : Quiet t u) : Quiet s u := by
  obtain ⟨past, hpast, hplain⟩ := h
  obtain ⟨past', hpast', hplain'⟩ := h'
  refine ⟨past' ++ past, by rw [hpast', hpast, List.append_assoc], fun e he => ?_⟩
  rcases List.mem_append.mp he with he | he
  · exact hplain' e he
  · exact hplain e he

theorem record {e : Event} (he : e.plain = true) (s : State) : Quiet s (s.record e) :=
  ⟨[e], rfl, by simpa using he⟩

/-- A write is quiet, also if it is refused. -/
theorem wrote (bs : Bytes) (s : State) : Quiet s (put (.wrote bs) s).2 := by
  rw [put_snd]
  unfold Sink.put
  cases hroom : s.sink.room with
  | none => exact ⟨[.wrote bs], rfl, by simp [Event.plain]⟩
  | some n =>
    by_cases h : (Event.wrote bs).bytes.length ≤ n
    · exact ⟨[.wrote bs], by simp [h], by simp [Event.plain]⟩
    · exact ⟨[.wrote ((Event.wrote bs).bytes.take n)], by simp [h], by simp [Event.plain]⟩

theorem beginDocument (s : State) : Quiet s s.beginDocument := by
  unfold State.beginDocument
  split <;> exact of_eq rfl

theorem descend (s : State) (key found : TypeKey) : Quiet s (s.descend key found) :=
  record (e := .dispatched key (some found)) rfl s

end Quiet

section

variable (s : State)

@[simp] theorem depth_beginDocument : s.beginDocument.depth = s.depth := by
  unfold State.beginDocument
  split <;> rfl

@[simp] theorem sharing_beginDocument : s.beginDocument.sharing = s.sharing := by
  unfold State.beginDocument
  split <;> rfl

end

/-! ### Sharing is off -/

theorem sharing_of_admission_marked {id : Ident} {index : Nat} (h : s.admission id = .marked index) :
    s.sharing = true := by
  cases hon : s.sharing with
  | true => rfl
  | false => by_cases hid : id ∈ s.opened <;> simp [admission, hon, hid] at h

/-- From `s` to `t` sharing was put back, and nothing was marked or referred to if it is off. -/
structure Unmarked (s t : State) : Prop where
  depth : t.depth = s.depth
  sharing : t.sharing = s.sharing
  quiet : s.sharing = false → Quiet s t

/-- **While sharing is off nothing is marked** and nothing is referred to. -/
theorem frame_unmarked : Frame Unmarked where
  refl s := ⟨rfl, rfl, fun _ => .of_eq rfl⟩
  trans h h' :=
    ⟨h'.depth.trans h.depth, h'.sharing.trans h.sharing,
      fun hoff => (h.quiet hoff).trans (h'.quiet (h.sharing.trans hoff))⟩
  depth h := h.depth
  wrote s bs := ⟨depth_put _ s, sharing_put _ s, fun _ => .wrote bs s⟩
  note s n := ⟨rfl, rfl, fun _ => .of_eq rfl⟩
  number s n := ⟨rfl, rfl, fun _ => .of_eq rfl⟩
  suspended h := ⟨h.depth, rfl, fun _ => h.quiet rfl⟩
  referred {s id index} ha := by
    refine ⟨depth_put _ s, sharing_put _ s, fun hoff => ?_⟩
    have hon := sharing_of_admission_marked ha
    simp [hoff] at hon
  marked {s id} ha := by
    refine ⟨depth_put _ _, sharing_put _ _, fun hoff => ?_⟩
    obtain ⟨hon, _⟩ := admission_eq_fresh_iff.mp ha
    simp [hoff] at hon
  plain {s id head t} _ h := by
    have hsharing : t.sharing = s.sharing := h.sharing.trans (sharing_put _ s)
    refine ⟨h.depth.trans (depth_put _ s), hsharing, fun hoff => ?_⟩
    have hbody := h.quiet ((sharing_put _ s).trans hoff)
    exact (((Quiet.wrote head s).trans (.record rfl _)).trans hbody).trans (.record rfl _)
  fresh {s id head t} ha h := by
    refine ⟨?_, ?_, fun hoff => ?_⟩
    · refine h.depth.trans ?_
      simp [State.enter, State.record, State.mark]
    · refine h.sharing.trans ?_
      simp [State.enter, State.record, State.mark]
    · obtain ⟨hon, _⟩ := admission_eq_fresh_iff.mp ha
      simp [hoff] at hon
  called {s t key found} _ h := by
    have hdepth : t.depth = s.depth + 1 := by simpa [State.descend] using h.depth
    have hsharing : t.sharing = s.sharing := h.sharing.trans (sharing_beginDocument s)
    refine ⟨by simp [State.ascend, hdepth], hsharing, fun hoff => ?_⟩
    have hbody := h.quiet ((sharing_beginDocument s).trans hoff)
    exact ((Quiet.beginDocument s).trans (.descend _ key found)).trans hbody
  refused {s key} _ :=
    ⟨depth_beginDocument s, sharing_beginDocument s,
      fun _ => (Quiet.beginDocument s).trans (.record rfl _)⟩

end State

/-! ### Scalars -/

section

variable {table : Table EncodeFn} {settings : Settings} {limit : Nat} {view : View}

/-- Inside a call, operations are quiet one after the other if each is. -/
theorem quiet_runAll {ops : List Op}
    (h : ∀ op ∈ ops, ∀ s : State, s.depth ≠ 0 →
      s.Quiet (Op.run (encodeValue table settings limit) view op s).2) {s : State} (hs : s.depth ≠ 0) :
    s.Quiet (Op.runAll (encodeValue table settings limit) view ops s).2 := by
  induction ops generalizing s with
  | nil => exact .of_eq rfl
  | cons op ops ih =>
    have hop := h op List.mem_cons_self s hs
    have hdepth : (Op.runAll (encodeValue table settings limit) view [op] s).2.depth = s.depth :=
      (State.frame_unmarked.runAll_encodeValue table settings limit [op] hs).depth
    rw [runAll_singleton] at hdepth
    have hrest := ih (fun op' hmem => h op' (List.mem_cons_of_mem _ hmem)) (hdepth.symm ▸ hs)
    rw [Op.runAll]
    rcases hrun : Op.run (encodeValue table settings limit) view op s with ⟨_ | e | _, t⟩ <;>
      rw [hrun] at hop hrest
    · exact hop.trans hrest
    · exact hop
    · exact hop

/-- **A scalar is written by a quiet run**, also while sharing is on. -/
theorem quiet_encodeValue_scalar (settings : Settings) (limit : Nat) (view : View) {v : Value}
    (hv : v.rank ≠ 0) (s : State) :
    s.Quiet (encodeValue builtinTable settings limit view v s).2 := by
  induction limit generalizing view v s with
  | zero => exact .of_eq rfl
  | succ limit ih =>
    obtain ⟨key, f, hfound, hsimple⟩ := Value.exists_simple settings view hv
    rw [encodeValue_of_some hfound]
    have hstart := (State.Quiet.beginDocument s).trans (.descend _ (view.typeKey v) key)
    refine hstart.trans (quiet_runAll (fun op hop t ht => ?_) (Nat.succ_ne_zero _))
    cases hsimple op hop with
    | write bs => exact .wrote bs t
    | fail e => exact .of_eq rfl
    | value hu hn => exact ih view hu t
    | pair ha hb hna hnb =>
      -- The array is new, but it is a container: it is quiet because sharing is suspended.
      obtain ⟨seen, id, _, hrun⟩ := run_pair (encodeValue builtinTable settings limit) view _ _ t
      rw [hrun]
      exact (State.frame_unmarked.encodeValue builtinTable settings limit seen _
        (s := { t with sharing := false, next := t.next + 1 }) fun h0 => absurd h0 ht).quiet rfl

end

/-! ### Reading the journal -/

namespace Event

/-- What an event writes if nothing is marked and containers that were met before are written in
full. -/
def unshared (full : Ident → Bytes) : Event → Bytes
  | marked _ => []
  | referred id _ => full id
  | e => e.bytes

theorem unshared_of_plain {full : Ident → Bytes} {e : Event} (h : e.plain = true) :
    e.unshared full = e.bytes := by
  cases e with
  | marked id => cases h
  | referred id index => cases h
  | _ => rfl

end Event

namespace State

/-- From `s` to `t` the events are read as `bs`, and the containers that are referred to are as `P`
says. -/
def Tells (full : Ident → Bytes) (P : Ident → Prop) (bs : Bytes) (s t : State) : Prop :=
  ∃ past, t.sink.journal = past ++ s.sink.journal ∧
    past.reverse.flatMap (Event.unshared full) = bs ∧ ∀ id index, .referred id index ∈ past → P id

namespace Tells

variable {full : Ident → Bytes} {P : Ident → Prop} {bs cs : Bytes} {s t u : State}

theorem trans (h : Tells full P bs s t) (h' : Tells full P cs t u) : Tells full P (bs ++ cs) s u := by
  obtain ⟨past, hpast, hread, hrefers⟩ := h
  obtain ⟨past', hpast', hread', hrefers'⟩ := h'
  refine ⟨past' ++ past, by rw [hpast', hpast, List.append_assoc], ?_, fun id index hmem => ?_⟩
  · rw [List.reverse_append, List.flatMap_append, hread, hread']
  · rcases List.mem_append.mp hmem with hmem | hmem
    · exact hrefers' id index hmem
    · exact hrefers id index hmem

/-- A quiet run is read as the bytes that it wrote. -/
theorem of_quiet (h : Quiet s t) (hbytes : t.sink.bytes = s.sink.bytes ++ bs) :
    Tells full P bs s t := by
  obtain ⟨past, hpast, hplain⟩ := h
  refine ⟨past, hpast, ?_, fun id index hmem => absurd (hplain _ hmem) (by simp [Event.plain])⟩
  have hread : past.reverse.flatMap (Event.unshared full) = past.reverse.flatMap Event.bytes := by
    refine List.flatMap_congr fun e he => ?_
    exact Event.unshared_of_plain (hplain e (List.mem_reverse.mp he))
  rw [hread]
  rw [Sink.bytes, hpast, List.reverse_append, List.flatMap_append] at hbytes
  exact List.append_cancel_left hbytes

theorem record {e : Event} (he : ∀ id index, e = .referred id index → P id) (s : State) :
    Tells full P (e.unshared full) s (s.record e) :=
  ⟨[e], rfl, by simp, fun id index hmem => he id index (List.mem_singleton.mp hmem).symm⟩

end Tells

end State

end CborGraph
