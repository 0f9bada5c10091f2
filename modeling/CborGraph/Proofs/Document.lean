import CborGraph.Proofs.Restoring

/-!
# What the journal says of the marks

The journal of a document says which containers it has marked, and with what number, and which are
open. What an encoder keeps is at every moment what can be read off there: `State.Told`. A
journal is `Journal.Ordered` if every event was allowed by those before it, so that no container is
marked twice or opened while it is open, and a reference leads to a container that was marked
before with that number.

An operation runs others inside it. `Op.Passes` says in which states an operation starts or ends
while operations are run, as long as no write is refused.

Main statement: `Encoder.document_told`, whatever the caller's own encoder functions do.
-/

namespace CborGraph

/-! ### Journals -/

namespace Journal

/-- The containers that are open after the events, which are most recent first. -/
def opened : List Event → List Ident
  | [] => []
  | .entered id :: events => id :: opened events
  | .left id :: events => (opened events).erase id
  | _ :: events => opened events

/-- The containers that were marked, each with the number of those that were open. -/
def marks : List Event → Marks
  | [] => []
  | .marked id :: events => (id, (opened events).length) :: marks events
  | _ :: events => marks events

/-- The event may follow the events. -/
def Allows (events : List Event) : Event → Prop
  | .marked id => (marks events).lookup id = none
  | .referred id index => (marks events).lookup id = some index
  | .entered id => id ∉ opened events
  | .left id => id ∈ opened events
  | _ => True

/-- Every event was allowed by those before it. -/
inductive Ordered : List Event → Prop
  /-- Nothing happened. -/
  | nil : Ordered []
  /-- One more event. -/
  | cons {e events} (he : Allows events e) (h : Ordered events) : Ordered (e :: events)

end Journal

/-- A container was opened. -/
def Event.isEntered : Event → Bool
  | entered _ => true
  | _ => false

/-- A container was closed. -/
def Event.isLeft : Event → Bool
  | left _ => true
  | _ => false

namespace Journal.Ordered

variable {events earlier : List Event} {id : Ident} {index : Nat}

theorem of_suffix (h : Ordered events) (hsuffix : earlier <:+ events) : Ordered earlier := by
  induction h with
  | nil => rw [List.suffix_nil.mp hsuffix]; exact .nil
  | cons he h ih =>
    rcases List.suffix_cons_iff.mp hsuffix with rfl | hsuffix
    · exact .cons he h
    · exact ih hsuffix

/-- No container is open twice. -/
theorem nodup_opened (h : Ordered events) : (opened events).Nodup := by
  induction h with
  | nil => exact List.nodup_nil
  | @cons e events he _ ih =>
    cases e with
    | entered id => exact List.nodup_cons.mpr ⟨he, ih⟩
    | left id => exact ih.erase id
    | _ => exact ih

/-- **As many containers are open** as were opened and not closed. -/
theorem count_entered (h : Ordered events) :
    events.countP Event.isEntered = events.countP Event.isLeft + (opened events).length := by
  induction h with
  | nil => rfl
  | @cons e events he _ ih =>
    rw [List.countP_cons, List.countP_cons, ih]
    cases e with
    | left id =>
      have hlength : (opened (.left id :: events)).length + 1 = (opened events).length := by
        rw [opened, List.length_erase_of_mem he]
        have := List.length_pos_of_mem he
        omega
      simp only [Event.isEntered, Event.isLeft]
      simp
      omega
    | entered id =>
      simp [Event.isEntered, Event.isLeft, opened]
      omega
    | _ => simp [Event.isEntered, Event.isLeft, opened]

/-- **The marks are those that were written**, each with the number of containers open then. -/
theorem lookup_marks_iff (h : Ordered events) :
    (marks events).lookup id = some index ↔
      ∃ earlier, .marked id :: earlier <:+ events ∧ index = (opened earlier).length := by
  induction h with
  | nil => simp [marks]
  | @cons e events he _ ih =>
    by_cases hmark : e = .marked id
    · subst hmark
      rw [marks, List.lookup_cons_self, Option.some_inj]
      constructor
      · rintro rfl
        exact ⟨events, List.suffix_rfl, rfl⟩
      · rintro ⟨earlier, hsuffix, rfl⟩
        rcases List.suffix_cons_iff.mp hsuffix with heq | hsuffix
        · rw [(List.cons.inj heq).2]
        · -- It would have been marked twice.
          have hagain := ih.mpr ⟨earlier, hsuffix, rfl⟩
          rw [he] at hagain
          cases hagain
    · have hlookup : (marks (e :: events)).lookup id = (marks events).lookup id := by
        cases e with
        | marked jd =>
          have hne : id ≠ jd := fun heq => hmark (by rw [heq])
          rw [marks, List.lookup_cons, beq_eq_false_iff_ne.mpr hne]
        | _ => rfl
      have hsuffix : ∀ earlier,
          .marked id :: earlier <:+ e :: events ↔ .marked id :: earlier <:+ events := by
        intro earlier
        rw [List.suffix_cons_iff, or_iff_right fun heq => hmark (List.cons.inj heq).1.symm]
      simp only [hlookup, hsuffix, ih]

/-- **A reference leads to a container that was marked before it**, by the number that it has. -/
theorem marked_of_referred (h : Ordered events)
    (hsuffix : .referred id index :: earlier <:+ events) :
    ∃ before, .marked id :: before <:+ earlier ∧ index = (opened before).length := by
  cases h.of_suffix hsuffix with
  | cons he hearlier => exact hearlier.lookup_marks_iff.mp he

end Journal.Ordered

/-! ### What an encoder keeps -/

namespace State

variable {s t u : State} {id : Ident} {past : List Event}

/-- The journal since `past` is in order and says what is marked and what is open. -/
def Told (past : List Event) (s : State) : Prop :=
  ∃ events, s.sink.journal = events ++ past ∧ Journal.Ordered events ∧
    s.marks = Journal.marks events ∧ s.opened = Journal.opened events

/-- One more event. -/
theorem Told.cons {e : Event} (h : s.Told past) (hj : t.sink.journal = e :: s.sink.journal)
    (he : ∀ events, s.marks = Journal.marks events → s.opened = Journal.opened events →
      Journal.Allows events e ∧ t.marks = Journal.marks (e :: events) ∧
        t.opened = Journal.opened (e :: events)) : t.Told past := by
  obtain ⟨events, hevents, hordered, hmarks, hopened⟩ := h
  obtain ⟨hallows, hmarks', hopened'⟩ := he events hmarks hopened
  have hj' : t.sink.journal = (e :: events) ++ past := by rw [hj, hevents, List.cons_append]
  exact ⟨e :: events, hj', .cons hallows hordered, hmarks', hopened'⟩

/-- A write that is not refused is recorded as it is. -/
theorem journal_put {e : Event} (h : (put e s).1 = .done) :
    (put e s).2.sink.journal = e :: s.sink.journal := by
  unfold put Sink.put at h ⊢
  cases hroom : s.sink.room with
  | none => rfl
  | some n =>
    rw [hroom] at h
    by_cases hn : e.bytes.length ≤ n
    · simp [hn]
    · simp [hn] at h

namespace Told

variable (h : s.Told past)

include h

theorem wrote {bs : Bytes} (hput : (put (.wrote bs) s).1 = .done) :
    (put (.wrote bs) s).2.Told past :=
  h.cons (journal_put hput) fun _ hmarks hopened =>
    ⟨trivial, (marks_put _ s).trans hmarks, (opened_put _ s).trans hopened⟩

theorem referred {index : Nat} (ha : s.admission id = .marked index)
    (hput : (put (.referred id index) s).1 = .done) :
    (put (.referred id index) s).2.Told past := by
  refine h.cons (journal_put hput) fun events hmarks hopened =>
    ⟨?_, (marks_put _ s).trans hmarks, (opened_put _ s).trans hopened⟩
  rw [Journal.Allows, ← hmarks]
  exact (admission_eq_marked_iff.mp ha).2

/-- The number of a mark is that of the containers that are open. -/
theorem mark (ha : s.admission id = .fresh) (hput : (put (.marked id) (s.mark id)).1 = .done) :
    (put (.marked id) (s.mark id)).2.Told past := by
  obtain ⟨_, hnone⟩ := admission_eq_fresh_iff.mp ha
  refine h.cons (journal_put hput) fun events hmarks hopened => ⟨?_, ?_, ?_⟩
  · rw [Journal.Allows, ← hmarks]
    exact hnone
  · rw [marks_put, Journal.marks, ← hmarks, ← hopened]
    rfl
  · exact (opened_put _ _).trans hopened

theorem enter (hid : id ∉ s.opened) : (s.enter id).Told past := by
  refine h.cons rfl fun events hmarks hopened => ⟨?_, hmarks, ?_⟩
  · rw [Journal.Allows, ← hopened]
    exact hid
  · rw [State.opened_enter hid, Journal.opened, ← hopened]

theorem leave (hid : id ∈ s.opened) : (s.leave id).Told past := by
  refine h.cons rfl fun events hmarks hopened => ⟨?_, hmarks, ?_⟩
  · rw [Journal.Allows, ← hopened]
    exact hid
  · rw [Journal.opened, ← hopened]
    rfl

theorem dispatched {key : TypeKey} {found : Option TypeKey} :
    (s.record (.dispatched key found)).Told past :=
  h.cons rfl fun _ hmarks hopened => ⟨trivial, hmarks, hopened⟩

end Told

/-- Inside a document that began after `past`: the state is inside a call and sound, and what it
keeps is what the journal says. -/
structure InDocument (past : List Event) (s : State) : Prop where
  depth : s.depth ≠ 0
  sound : s.Sound
  told : s.Told past

namespace InDocument

variable (h : s.InDocument past)

include h

theorem of_kept (hkept : s.Kept t) (ht : t.Told past) : t.InDocument past :=
  ⟨hkept.depth ▸ h.depth, hkept.sound h.sound, ht⟩

/-- Inside a call no document begins. -/
theorem descend (key found : TypeKey) : (s.beginDocument.descend key found).InDocument past := by
  rw [show s.beginDocument = s from if_neg h.depth]
  exact ⟨Nat.succ_ne_zero _, h.sound, h.told.dispatched⟩

theorem suspended : InDocument past { s with sharing := false } :=
  ⟨h.depth, fun hon => absurd hon Bool.false_ne_true, h.told⟩

theorem number (n : Nat) : InDocument past { s with next := s.next + n } :=
  ⟨h.depth, h.sound, h.told⟩

theorem ident {owner : Owner} (ho : owner.ident s = (id, t)) : t.InDocument past := by
  cases owner with
  | existing jd =>
    cases ho
    exact h
  | fresh =>
    cases ho
    exact h.number 1

/-- A container that may be entered is opened. -/
theorem enter (ha : Admitted s u id) (hu : u.Told past) : (u.enter id).InDocument past := by
  have hid : id ∉ u.opened := by
    rw [ha.kept.opened h.sound]
    exact ha.not_mem h.sound
  exact ⟨(h.of_kept ha.kept hu).depth, ha.sound h.sound, hu.enter hid⟩

end InDocument

/-! ### Runs -/

/-- A run from `s` to `t` inside a document keeps up with the journal, if the sink has no limit. -/
structure Follows (s t : State) : Prop where
  kept : Kept s t
  room : s.sink.room = none → t.sink.room = none
  told : s.sink.room = none → ∀ past, s.InDocument past → t.Told past

namespace Follows

theorem trans (h : Follows s t) (h' : Follows t u) : Follows s u where
  kept := h.kept.trans h'.kept
  room hs := h'.room (h.room hs)
  told hs past hin := h'.told (h.room hs) past (hin.of_kept h.kept (h.told hs past hin))

/-- A write that is recorded keeps up if the record does. -/
theorem put {e : Event} (hkept : Kept s t) (hsink : t.sink = s.sink)
    (hput : ∀ past, s.Told past → (put e t).1 = .done → (put e t).2.Told past) :
    Follows s (State.put e t).2 where
  kept := hkept.trans (.put e t)
  room hs := by
    rw [← hsink] at hs
    rw [put_eq hs]
    exact hs
  told hs past hin := by
    rw [← hsink] at hs
    exact hput past hin.told (by rw [put_eq hs])

theorem wrote (s : State) (bs : Bytes) : Follows s (State.put (.wrote bs) s).2 :=
  .put (.of_eq rfl rfl rfl rfl) rfl fun _ hm => hm.wrote

/-- What goes on inside a container is over when it is closed. -/
theorem leave (ha : Admitted s u id) (hu : Follows s u) (ht : Follows (u.enter id) t) :
    Follows s (t.leave id) where
  kept := ha.leave ht.kept
  room hs := ht.room (hu.room hs)
  told hs past hin := by
    have hbody := ht.told (hu.room hs) past (hin.enter ha (hu.told hs past hin))
    have hopen : t.opened = id :: s.opened := by
      rw [ht.kept.opened (ha.sound hin.sound), ha.opened_enter hin.sound]
    exact hbody.leave (by rw [hopen]; exact List.mem_cons_self)

end Follows

/-- **What an encoder keeps follows the journal** in each part of a run. -/
theorem frame_follows : Frame Follows where
  refl s := ⟨frame_kept.refl s, id, fun _ _ hin => hin.told⟩
  trans := .trans
  depth h := h.kept.depth
  wrote := .wrote
  note s n := ⟨frame_kept.note s n, id, fun _ _ hin => hin.told⟩
  number s n := ⟨frame_kept.number s n, id, fun _ _ hin => hin.told⟩
  suspended h :=
    ⟨frame_kept.suspended h.kept, h.room, fun hs past hin => h.told hs past hin.suspended⟩
  referred ha := .put (.of_eq rfl rfl rfl rfl) rfl fun _ hm => hm.referred ha
  marked ha := .put (.mark _ _) rfl fun _ hm => hm.mark ha
  plain ha h := .leave (.plain ha _) (.wrote _ _) h
  fresh ha h := .leave (.fresh ha _)
    ((Follows.put (.mark _ _) rfl fun _ hm => hm.mark ha).trans (.wrote _ _)) h
  called {s t key found} hset h := by
    have hsink : (s.beginDocument.descend key found).sink.room = s.sink.room := by
      change s.beginDocument.sink.room = s.sink.room
      rw [sink_beginDocument]
    exact ⟨frame_kept.called hset h.kept, fun hs => h.room (hsink.trans hs),
      fun hs past hin => h.told (hsink.trans hs) past (hin.descend key found)⟩
  refused {s key} hset := by
    refine ⟨frame_kept.refused hset, fun hs => ?_, fun _ past hin => ?_⟩
    · rwa [← sink_beginDocument] at hs
    · rw [show s.beginDocument = s from if_neg hin.depth]
      exact hin.told.dispatched

/-! ### Writes that are not refused -/

/-- The state with a sink that has no limit. -/
def unlimited (s : State) : State := { s with sink := { s.sink with room := none } }

end State

/-- No write of the run is refused: it goes the same way in a sink that has no limit. -/
def Run.Unrefused (r : Run) (s : State) : Prop := r s.unlimited = ((r s).1, (r s).2.unlimited)

/-- A write is not refused if and only if it succeeds. -/
theorem State.unrefused_put_iff {e : Event} {s : State} :
    Run.Unrefused (put e) s ↔ (put e s).1 = .done := by
  have hfull : put e s.unlimited = (.done, s.unlimited.record e) := by
    have hroom : s.unlimited.sink.room = none := rfl
    rw [put_eq hroom]
  rw [Run.Unrefused, hfull]
  constructor
  · exact fun h => (congrArg Prod.fst h).symm
  · intro h
    have hput : (put e s).2.unlimited = s.unlimited.record e := by
      unfold put Sink.put at h ⊢
      cases hroom : s.sink.room with
      | none => rfl
      | some n =>
        rw [hroom] at h
        by_cases hn : e.bytes.length ≤ n
        · simp [hn, unlimited, record]
        · simp [hn] at h
    rw [h, hput]

/-- A run in which no write is refused keeps up with the journal. -/
theorem Run.Unrefused.inDocument {r : Run} {s : State} {past : List Event} (h : r.Unrefused s)
    (hr : s.unlimited.Follows (r s.unlimited).2) (hs : s.InDocument past) :
    (r s).2.InDocument past := by
  have hin : s.unlimited.InDocument past := ⟨hs.depth, hs.sound, hs.told⟩
  have ht := hin.of_kept hr.kept (hr.told rfl past hin)
  rw [congrArg Prod.snd h] at ht
  exact ⟨ht.depth, ht.sound, ht.told⟩

/-! ### While operations are run -/

section

variable (table : Table EncodeFn) (settings : Settings)

/-- While the operations are run from a state, an operation or the function of a value starts or
ends in the other state, and no write was refused so far. -/
inductive Op.Passes : Nat → View → List Op → State → State → Prop
  /-- The operations start. -/
  | start {limit view ops s} : Passes limit view ops s s
  /-- The first operation ends, in success or in failure. -/
  | ended {limit view op ops s}
      (hun : Run.Unrefused (Op.run (encodeValue table settings limit) view op) s) :
      Passes limit view (op :: ops) s (Op.run (encodeValue table settings limit) view op s).2
  /-- The first operation has succeeded, and the others are run. -/
  | later {limit view op ops s t u}
      (hun : Run.Unrefused (Op.run (encodeValue table settings limit) view op) s)
      (hop : Op.run (encodeValue table settings limit) view op s = (.done, u))
      (h : Passes limit view ops u t) : Passes limit view (op :: ops) s t
  /-- In the function of a value. -/
  | called {limit view d ops s t v cells key f}
      (hd : d.place (fun k => .temporary (s.next + k)) [] #[] = (v, cells))
      (hfound : table.resolve (view.extend s.next cells) v = some (key, f))
      (h : Passes limit (view.extend s.next cells) (f settings (view.extend s.next cells) v)
        (({ s with next := s.next + cells.size } : State).beginDocument.descend
          ((view.extend s.next cells).typeKey v) key) t) :
      Passes (limit + 1) view (.encode d :: ops) s t
  /-- While sharing is suspended. -/
  | suspended {limit view body ops s t} (h : Passes limit view body { s with sharing := false } t) :
      Passes limit view (.suspended body :: ops) s t
  /-- While something is attempted. -/
  | attempted {limit view body ops s t} (h : Passes limit view body s t) :
      Passes limit view (.attempt body :: ops) s t
  /-- In a container that is not marked. -/
  | plain {limit view owner major length body ops s u id t} (h0 : length ≠ 0)
      (hid : Owner.ident owner s = (id, u)) (ha : u.admission id = .plain)
      (hhead : Run.Unrefused (State.put (.wrote (Head.ofLength major length))) u)
      (h : Passes limit view body
        ((State.put (.wrote (Head.ofLength major length)) u).2.enter id) t) :
      Passes limit view (.container owner major length body :: ops) s t
  /-- In a container that is marked. -/
  | fresh {limit view owner major length body ops s u id t} (h0 : length ≠ 0)
      (hid : Owner.ident owner s = (id, u)) (ha : u.admission id = .fresh)
      (hmark : Run.Unrefused (State.put (.marked id)) (u.mark id))
      (hhead : Run.Unrefused (State.put (.wrote (Head.ofLength major length)))
        (State.put (.marked id) (u.mark id)).2)
      (h : Passes limit view body ((State.put (.wrote (Head.ofLength major length))
        (State.put (.marked id) (u.mark id)).2).2.enter id) t) :
      Passes limit view (.container owner major length body :: ops) s t

end

section

variable {table : Table EncodeFn} {settings : Settings} {limit : Nat} {view : View} {ops : List Op}
variable {s t : State} {past : List Event}

/-- An operation in which no write is refused keeps up with the journal. -/
theorem Op.inDocument_run {op : Op}
    (hun : Run.Unrefused (Op.run (encodeValue table settings limit) view op) s)
    (hs : s.InDocument past) :
    (Op.run (encodeValue table settings limit) view op s).2.InDocument past := by
  have hfollows : s.unlimited.Follows
      (Op.runAll (encodeValue table settings limit) view [op] s.unlimited).2 :=
    State.frame_follows.runAll_encodeValue table settings limit [op] hs.depth
  rw [runAll_singleton] at hfollows
  exact hun.inDocument hfollows hs

/-- **In every state that is passed inside a document**, what an encoder keeps is what the journal
says. The proof follows the operations, one case for each way into them. -/
theorem Op.Passes.inDocument (h : Op.Passes table settings limit view ops s t)
    (hs : s.InDocument past) : t.InDocument past := by
  induction h with
  | start => exact hs
  | ended hun => exact Op.inDocument_run hun hs
  | later hun hop _ ih =>
    have hu := Op.inDocument_run hun hs
    rw [hop] at hu
    exact ih hu
  | called _ _ _ ih =>
    exact ih ((hs.number _).descend _ _)
  | suspended _ ih => exact ih hs.suspended
  | attempted _ ih => exact ih hs
  | plain _ hid ha hhead _ ih =>
    have hu := hs.ident hid
    exact ih (hu.enter (.plain ha _) (hu.told.wrote (State.unrefused_put_iff.mp hhead)))
  | fresh _ hid ha hmark hhead _ ih =>
    have hu := hs.ident hid
    have hmarked := hu.told.mark ha (State.unrefused_put_iff.mp hmark)
    exact ih (hu.enter (.fresh ha _) (hmarked.wrote (State.unrefused_put_iff.mp hhead)))

end

/-! ### Documents -/

section

variable {s : State}

/-- When a document begins nothing is marked and nothing is open. -/
theorem State.Told.begin (hdepth : s.depth = 0) (hopened : s.opened = []) :
    s.beginDocument.Told s.sink.journal := by
  rw [State.beginDocument, if_pos hdepth]
  exact ⟨[], rfl, .nil, rfl, hopened⟩

theorem State.Sound.of_opened (hopened : s.opened = []) : s.Sound := by
  intro _ id hid
  rw [hopened] at hid
  cases hid

/-- The function of the value that is the document starts inside it. -/
theorem State.InDocument.begin (hdepth : s.depth = 0) (hopened : s.opened = [])
    (key found : TypeKey) : (s.beginDocument.descend key found).InDocument s.sink.journal := by
  have hopened' : s.beginDocument.opened = [] := (s.opened_beginDocument).trans hopened
  exact ⟨Nat.succ_ne_zero _, .of_opened hopened', (State.Told.begin hdepth hopened).dispatched⟩

end

namespace Encoder

/-- While the encoder encodes a value, the function of a value or an operation starts or ends in the
state, and no write was refused so far. -/
inductive Passes (e : Encoder) (limit : Nat) (view : View) (v : Value) : State → Prop
  /-- In the function of the value. -/
  | inside {key f t} (hfound : e.table.resolve view v = some (key, f))
      (h : Op.Passes e.table e.settings limit view (f e.settings view v)
        (e.state.beginDocument.descend (view.typeKey v) key) t) : Passes e limit view v t
  /-- At the end. -/
  | ended (hun : Run.Unrefused (encodeValue e.table e.settings (limit + 1) view v) e.state) :
      Passes e limit view v (encodeValue e.table e.settings (limit + 1) view v e.state).2

variable {e : Encoder} {limit : Nat} {view : View} {v : Value} {t : State}

/-- What an encoder keeps at the end of a document is what the journal says. -/
theorem told_ended (hdepth : e.state.depth = 0) (hopened : e.state.opened = [])
    (hun : Run.Unrefused (encodeValue e.table e.settings (limit + 1) view v) e.state) :
    let t := (encodeValue e.table e.settings (limit + 1) view v e.state).2
    t.Sound ∧ t.Told e.state.sink.journal := by
  intro t
  obtain ⟨s, hs⟩ : ∃ s, e.state.unlimited = s := ⟨_, rfl⟩
  have hdepth : s.depth = 0 := hs ▸ hdepth
  have hopened : s.opened = [] := hs ▸ hopened
  have hjournal : s.sink.journal = e.state.sink.journal := hs ▸ rfl
  have ht : (encodeValue e.table e.settings (limit + 1) view v s).2 = t.unlimited :=
    hs ▸ congrArg Prod.snd hun
  -- What is kept and the journal do not depend on the room that the sink has.
  suffices h : t.unlimited.Sound ∧ t.unlimited.Told s.sink.journal by
    rw [hjournal] at h
    exact h
  rw [← ht]
  cases hfound : e.table.resolve view v with
  | none =>
    rw [encodeValue_of_resolve_none hfound]
    have hend := State.Told.begin hdepth hopened
    exact ⟨.of_opened ((s.opened_beginDocument).trans hopened), hend.dispatched⟩
  | some entry =>
    obtain ⟨key, f⟩ := entry
    rw [encodeValue_of_some hfound]
    have hbegin := State.InDocument.begin hdepth hopened (view.typeKey v) key
    have hrun : State.Follows _ (Op.runAll (encodeValue e.table e.settings limit) view
        (f e.settings view v) (s.beginDocument.descend (view.typeKey v) key)).2 :=
      State.frame_follows.runAll_encodeValue e.table e.settings limit _ hbegin.depth
    have hroom : s.beginDocument.sink.room = none := by
      rw [State.sink_beginDocument, ← hs]
      rfl
    have hend := hbegin.of_kept hrun.kept (hrun.told hroom _ hbegin)
    exact ⟨hend.sound, hend.told⟩

/-- **What an encoder keeps is at every moment what the document says.** Let an encoder encode a
value outside of any other and with no container open, by any table, so with any functions of the
caller, which may open containers, suspend sharing and go on after errors. Whenever a function or
an operation starts or ends, as long as no write was refused, the journal of the document so far
says what the encoder keeps:

* a container has a mark if and only if the document has marked it before, and its number is that
  of the containers that were open then;
* the open containers are those that the document has entered and not left, each once, and there
  are as many as were entered and not left;
* while sharing is on, every open container has a mark.

So a reference leads only to a container that the same document has marked before. -/
theorem document_told (hdepth : e.state.depth = 0) (hopened : e.state.opened = [])
    (ht : e.Passes limit view v t) :
    ∃ events, t.sink.journal = events ++ e.state.sink.journal ∧
      (∀ id index, t.marks.lookup id = some index ↔
        ∃ earlier, .marked id :: earlier <:+ events ∧ index = (Journal.opened earlier).length) ∧
      t.opened = Journal.opened events ∧ t.opened.Nodup ∧
      events.countP Event.isEntered = events.countP Event.isLeft + t.opened.length ∧
      (t.sharing = true → ∀ id ∈ t.opened, ∃ index, t.marks.lookup id = some index) ∧
      ∀ id index earlier, .referred id index :: earlier <:+ events →
        ∃ before, .marked id :: before <:+ earlier ∧ index = (Journal.opened before).length := by
  have hkept : t.Sound ∧ t.Told e.state.sink.journal := by
    cases ht with
    | inside hfound h =>
      have hend := h.inDocument (.begin hdepth hopened _ _)
      exact ⟨hend.sound, hend.told⟩
    | ended hun => exact told_ended hdepth hopened hun
  obtain ⟨hsound, events, hevents, hordered, hmarks, hopened⟩ := hkept
  refine ⟨events, hevents, ?_, hopened, ?_, ?_, hsound, ?_⟩
  · intro id index
    rw [hmarks]
    exact hordered.lookup_marks_iff
  · rw [hopened]
    exact hordered.nodup_opened
  · rw [hopened]
    exact hordered.count_entered
  · exact fun id index earlier => hordered.marked_of_referred

/-- A function of the caller goes on after an error in a container, and then is in another with
sharing suspended, from where it opens the first again. -/
theorem document_told_after_error :
    let broken : Op := .container (.existing (.stored 0)) .array 1 [.fail .naiveDateTime]
    let again : Op := .container (.existing (.stored 0)) .map 1 []
    let f : EncodeFn := fun _ _ _ =>
      [.attempt [broken], .container (.existing (.stored 1)) .array 1 [.suspended [again]]]
    let o : Options := { sharing := true, overrides := [(.kind .text, f)] }
    let e : Encoder := .ofOptions o (.limited 9 .fails)
    let caught := (Op.run (encodeValue e.table e.settings 0) Graph.empty.view (.attempt [broken])
      (e.state.beginDocument.descend (.kind .text) (.kind .text))).2
    let outer := (State.put (.wrote [0x81])
      (State.put (.marked (.stored 1)) (caught.mark (.stored 1))).2).2.enter (.stored 1)
    let t := (State.put (.wrote [0xA1]) { outer with sharing := false }).2.enter (.stored 0)
    e.state.depth = 0 ∧ e.state.opened = [] ∧ e.Passes 0 Graph.empty.view (.text "a") t ∧
      t.sink.bytes = [0xD8, 28, 0x81, 0xD8, 28, 0x81, 0xA1] ∧
      t.marks = [(.stored 1, 0), (.stored 0, 0)] ∧ t.opened = [.stored 0, .stored 1] ∧
      ∃ events, t.sink.journal = events ∧ t.opened = Journal.opened events ∧
        ∃ earlier, .marked (.stored 0) :: earlier <:+ events ∧
          0 = (Journal.opened earlier).length := by
  intro broken again f o e caught outer t
  have hpasses : e.Passes 0 Graph.empty.view (.text "a") t := by
    have hfound : e.table.resolve Graph.empty.view (.text "a") = some (.kind .text, f) := rfl
    refine .inside hfound (.later rfl rfl (.fresh Nat.one_ne_zero rfl rfl
      (State.unrefused_put_iff.mpr rfl) (State.unrefused_put_iff.mpr rfl) ?_))
    exact .suspended (.plain Nat.one_ne_zero rfl rfl (State.unrefused_put_iff.mpr rfl) .start)
  obtain ⟨events, hevents, hmarks, hopened, -⟩ := document_told rfl rfl hpasses
  rw [show e.state.sink.journal = [] from rfl, List.append_nil] at hevents
  have hmarked := (hmarks (.stored 0) 0).mp rfl
  exact ⟨rfl, rfl, hpasses, rfl, rfl, rfl, events, hevents, hopened, hmarked⟩

end Encoder

end CborGraph
