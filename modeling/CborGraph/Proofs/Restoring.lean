import CborGraph.Proofs.Limit
import CborGraph.Proofs.Sharing

/-!
# What is put back

Whatever operations do and however they end, they put back how deep calls are nested, which
containers are open, and whether sharing is on.

The containers that are open are a set, so closing a container that was opened twice would
close the outer one as well. That this does not happen rests on `State.Sound`: while sharing is
on, a container that is open has a mark, and marks are kept while a container is open. So a
container with no mark is not open. While sharing is off, an open container is not entered.

Main statement: `Encoder.run_restores`, in every state in which an operation may start; see
`Encoder.Reachable`.
-/

namespace CborGraph

namespace State

/-! ### Marks and open containers -/

/-- While sharing is on, the containers that are open have marks. -/
def Sound (s : State) : Prop := s.sharing = true → ∀ id ∈ s.opened, Marked s.marks id

/-- From `s` to `t` nesting and sharing were put back, and so were the containers that are open
if `s` is sound. Inside a call, or while a container is open, no mark was lost. -/
structure Kept (s t : State) : Prop where
  sharing : t.sharing = s.sharing
  depth : t.depth = s.depth
  opened : s.Sound → t.opened = s.opened
  marked : s.depth ≠ 0 ∨ s.Sound ∧ s.opened ≠ [] → ∀ id, Marked s.marks id → Marked t.marks id

variable {s t u : State} {id : Ident}

/-- A change of nothing but the sink, the notes and the numbers keeps everything. -/
theorem Kept.of_eq (hsharing : t.sharing = s.sharing) (hdepth : t.depth = s.depth)
    (hopened : t.opened = s.opened) (hmarks : t.marks = s.marks) : Kept s t :=
  ⟨hsharing, hdepth, fun _ => hopened, fun _ id h => by rwa [hmarks]⟩

theorem Kept.sound (h : Kept s t) (hs : s.Sound) : t.Sound := by
  intro hon id hid
  rw [h.opened hs] at hid
  rw [h.sharing] at hon
  exact h.marked (.inr ⟨hs, List.ne_nil_of_mem hid⟩) id (hs hon id hid)

theorem Kept.trans (h : Kept s t) (h' : Kept t u) : Kept s u where
  sharing := h'.sharing.trans h.sharing
  depth := h'.depth.trans h.depth
  opened hs := (h'.opened (h.sound hs)).trans (h.opened hs)
  marked hs id hm := by
    refine h'.marked ?_ id (h.marked hs id hm)
    rcases hs with h0 | ⟨hs, hne⟩
    · left
      rwa [h.depth]
    · right
      exact ⟨h.sound hs, by rwa [h.opened hs]⟩

/-- A container with no mark is not open. -/
theorem Sound.not_mem (hs : s.Sound) (hon : s.sharing = true) (hid : s.marks.lookup id = none) :
    id ∉ s.opened := by
  intro hmem
  obtain ⟨index, hm⟩ := hs hon id hmem
  rw [hid] at hm
  cases hm

theorem marked_mark {jd : Ident} (h : Marked s.marks jd) : Marked (s.mark id).marks jd := by
  obtain ⟨index, hm⟩ := h
  unfold mark Marked
  by_cases hid : jd = id
  · exact ⟨_, by rw [hid, List.lookup_cons_self]⟩
  · exact ⟨index, by rw [List.lookup_cons, beq_eq_false_iff_ne.mpr hid]; exact hm⟩

theorem Kept.put (e : Event) (s : State) : Kept s (State.put e s).2 :=
  .of_eq (sharing_put e s) (depth_put e s) (opened_put e s) (marks_put e s)

theorem Kept.mark (s : State) (id : Ident) : Kept s (s.mark id) :=
  ⟨rfl, rfl, fun _ => rfl, fun _ _ => marked_mark⟩

/-- Forgetting the marks for a new document loses nothing while a container is open. -/
theorem Kept.beginDocument (hs : s.Settled) : Kept s s.beginDocument := by
  unfold State.beginDocument
  split
  · next h0 =>
    refine ⟨rfl, rfl, fun _ => rfl, ?_⟩
    rintro (hne | ⟨_, hne⟩)
    · exact absurd h0 hne
    · exact absurd (hs h0) hne
  · exact .of_eq rfl rfl rfl rfl

/-- What goes on inside a call is over after it. -/
theorem Kept.ascend {key found : TypeKey} (h : Kept (s.descend key found) t) : Kept s t.ascend where
  sharing := h.sharing
  depth := by
    change t.depth - 1 = s.depth
    rw [h.depth]
    rfl
  opened hs := h.opened hs
  marked _ := h.marked (.inl (Nat.succ_ne_zero _))

/-- From `s`, in which the container may be entered, to `u`, in which its header is written. -/
structure Admitted (s u : State) (id : Ident) : Prop where
  kept : Kept s u
  not_mem : s.Sound → id ∉ s.opened
  marked : u.sharing = true → Marked u.marks id

namespace Admitted

theorem plain (ha : s.admission id = .plain) (head : Bytes) :
    Admitted s (State.put (.wrote head) s).2 id := by
  obtain ⟨hoff, hid⟩ := admission_eq_plain_iff.mp ha
  refine ⟨.put _ s, fun _ => hid, fun hon => ?_⟩
  simp [hoff] at hon

theorem fresh (ha : s.admission id = .fresh) (head : Bytes) :
    Admitted s (State.put (.wrote head) (State.put (.marked id) (s.mark id)).2).2 id := by
  obtain ⟨hon, hnone⟩ := admission_eq_fresh_iff.mp ha
  refine ⟨((Kept.mark s id).trans (.put _ _)).trans (.put _ _), fun hs => hs.not_mem hon hnone,
    fun _ => ?_⟩
  simp only [marks_put]
  exact ⟨_, List.lookup_cons_self⟩

theorem opened_enter (h : Admitted s u id) (hs : s.Sound) : (u.enter id).opened = id :: s.opened := by
  rw [State.opened_enter (by rw [h.kept.opened hs]; exact h.not_mem hs), h.kept.opened hs]

theorem sound (h : Admitted s u id) (hs : s.Sound) : (u.enter id).Sound := by
  intro hon jd hjd
  rw [h.opened_enter hs, List.mem_cons] at hjd
  rcases hjd with rfl | hjd
  · exact h.marked hon
  · exact h.kept.sound hs hon jd (by rwa [h.kept.opened hs])

/-- What goes on inside a container is over when it is closed. -/
theorem leave (h : Admitted s u id) (ht : Kept (u.enter id) t) : Kept s (t.leave id) := by
  constructor
  · exact ht.sharing.trans h.kept.sharing
  · exact ht.depth.trans h.kept.depth
  · intro hs
    change t.opened.erase id = s.opened
    rw [ht.opened (h.sound hs), h.opened_enter hs, List.erase_cons_head]
  · intro hs jd hm
    refine ht.marked ?_ jd (h.kept.marked hs jd hm)
    rcases hs with h0 | ⟨hs, _⟩
    · left
      change u.depth ≠ 0
      rwa [h.kept.depth]
    · right
      exact ⟨h.sound hs, by rw [h.opened_enter hs]; exact List.cons_ne_nil _ _⟩

end Admitted

/-- **Nesting, sharing and the open containers are put back** by each part of a run. -/
theorem frame_kept : Frame Kept where
  refl s := .of_eq rfl rfl rfl rfl
  trans := .trans
  depth h := h.depth
  wrote s bs := .put _ s
  note s n := .of_eq rfl rfl rfl rfl
  number s n := .of_eq rfl rfl rfl rfl
  suspended {s t} h := by
    have hoff : Sound { s with sharing := false } := fun hon => absurd hon Bool.false_ne_true
    refine ⟨rfl, h.depth, fun _ => h.opened hoff, fun hs => h.marked ?_⟩
    rcases hs with h0 | ⟨_, hne⟩
    · exact .inl h0
    · exact .inr ⟨hoff, hne⟩
  referred _ := .put _ _
  marked _ := .trans (.mark _ _) (.put _ _)
  plain ha h := (Admitted.plain ha _).leave h
  fresh ha h := (Admitted.fresh ha _).leave h
  called hset h := (Kept.beginDocument hset).trans h.ascend
  refused hset := (Kept.beginDocument hset).trans (.of_eq rfl rfl rfl rfl)

end State

/-! ### Encoders -/

namespace Encoder

section WithState

variable (e : Encoder) (r : Outcome × State)

@[simp] theorem outcome_withState : (e.withState r).1 = r.1 := rfl

@[simp] theorem state_withState : (e.withState r).2.state = r.2 := rfl

@[simp] theorem settings_withState : (e.withState r).2.settings = e.settings := rfl

@[simp] theorem table_withState : (e.withState r).2.table = e.table := rfl

end WithState

/-- Run operations with what is in every container, down to a limit of nesting. -/
def run (e : Encoder) (limit : Nat) (view : View) (ops : List Op) : Outcome × Encoder :=
  e.withState (Op.runAll (encodeValue e.table e.settings limit) view ops e.state)

theorem perform_eq_run (e : Encoder) (g : Graph) (ops : List Op) :
    e.perform g ops = e.run (nestingLimit g) g.view ops := by
  rw [perform, run]

/-- The operations come to an end, in success or in failure, and begin no document while a
container is open. -/
def Returns (e : Encoder) (limit : Nat) (view : View) (ops : List Op) : Prop :=
  (Op.runAll (asserting (encodeValue e.table e.settings limit)) view ops e.state).1 ≠ .exhausted

instance (e : Encoder) (limit : Nat) (view : View) (ops : List Op) :
    Decidable (e.Returns limit view ops) := instDecidableNot

/-- **Operations that return put back** nesting, sharing and the open containers. -/
theorem kept_run {e : Encoder} {limit : Nat} {view : View} {ops : List Op}
    (h : e.Returns limit view ops) : e.state.Kept (e.run limit view ops).2.state := by
  have hkept := State.frame_kept.runAll_asserting e.table e.settings limit view ops e.state
  rw [← (agrees_asserting _).runAll view ops e.state h] at hkept
  exact hkept

/-- Encoding a value at a place where it may begin a document puts back the same. -/
theorem kept_encode {e : Encoder} (h : e.state.Settled) (g : Graph) (v : Value) :
    e.state.Kept (e.encode g v).2.state := by
  rw [encode, state_withState]
  exact State.frame_kept.encodeValue e.table e.settings _ g.view v h

/-- The encoders with the options `o` that operations can be run on: a new one, one after
operations, and one that runs a part of an operation. -/
inductive Reachable (o : Options) : Encoder → Prop
  /-- A new encoder. -/
  | new (sink : Sink) (next : Nat) : Reachable o (.ofOptions o sink next)
  /-- After operations, however they ended. -/
  | after {e : Encoder} (he : Reachable o e) {limit : Nat} {view : View} {ops : List Op}
      (hret : e.Returns limit view ops) : Reachable o (e.run limit view ops).2
  /-- After containers were made. -/
  | number {e : Encoder} (he : Reachable o e) (n : Nat) :
      Reachable o { e with state := { e.state with next := e.state.next + n } }
  /-- In a call, where an encoder function starts. -/
  | call {e : Encoder} (he : Reachable o e) (hset : e.state.Settled) (key found : TypeKey) :
      Reachable o { e with state := e.state.beginDocument.descend key found }
  /-- While sharing is suspended. -/
  | suspended {e : Encoder} (he : Reachable o e) :
      Reachable o { e with state := { e.state with sharing := false } }
  /-- In a container that was not marked. -/
  | plain {e : Encoder} (he : Reachable o e) {id : Ident} (ha : e.state.admission id = .plain)
      (head : Bytes) :
      Reachable o { e with state := (State.put (.wrote head) e.state).2.enter id }
  /-- In a container that was marked. -/
  | fresh {e : Encoder} (he : Reachable o e) {id : Ident} (ha : e.state.admission id = .fresh)
      (head : Bytes) :
      Reachable o { e with
        state := (State.put (.wrote head) (State.put (.marked id) (e.state.mark id)).2).2.enter id }

/-- **Every encoder that can be reached is sound.** -/
theorem Reachable.sound {o : Options} {e : Encoder} (h : Reachable o e) : e.state.Sound := by
  induction h with
  | new sink next => exact fun _ id hid => absurd hid List.not_mem_nil
  | after _ hret ih => exact (kept_run hret).sound ih
  | number _ n ih => exact ih
  | call _ hset key found ih => exact (State.Kept.beginDocument hset).sound ih
  | suspended _ _ => exact fun hon => absurd hon Bool.false_ne_true
  | plain _ ha head ih => exact (State.Admitted.plain ha head).sound ih
  | fresh _ ha head ih => exact (State.Admitted.fresh ha head).sound ih

/-- **The state of a traversal is put back on every way out.** Whatever operations are run on an
encoder that can be reached, with whatever encoder functions of the caller and down to
whatever limit of nesting, and whenever the sink begins to refuse: if they return, in success
or in failure, then the nesting, the containers that are open, sharing, the settings and the
table are what they were. -/
theorem run_restores {o : Options} {e : Encoder} (he : Reachable o e) {limit : Nat} {view : View}
    {ops : List Op} (hret : e.Returns limit view ops) :
    (e.run limit view ops).2.state.depth = e.state.depth ∧
      (e.run limit view ops).2.state.opened = e.state.opened ∧
      (e.run limit view ops).2.state.sharing = e.state.sharing ∧
      (e.run limit view ops).2.settings = e.settings ∧ (e.run limit view ops).2.table = e.table := by
  have hkept := kept_run hret
  exact ⟨hkept.depth, hkept.opened he.sound, hkept.sharing, rfl, rfl⟩

/-- Texts are written by a function of the caller that fails inside two containers, the inner one
with sharing suspended, goes on from there, and then writes more than there is room for. -/
theorem run_restores_full_sink :
    let inner : Op := .suspended [.container (.existing (.stored 1)) .map 1 [.fail .naiveDateTime]]
    let f : EncodeFn := fun _ _ _ =>
      [.attempt [.container (.existing (.stored 0)) .array 1 [inner]], .write [1, 2, 3, 4, 5]]
    let o : Options := { sharing := true, overrides := [(.kind .text, f)] }
    let e : Encoder := .ofOptions o (.limited 8 .fails)
    let r := e.run 2 Graph.empty.view [.value (.text "a")]
    Reachable o e ∧ e.Returns 2 Graph.empty.view [.value (.text "a")] ∧
      r.1 = .failed (.io "sink full") ∧
      r.2.state.sink.bytes = [0xD8, 28, 0x81, 0xA1, 1, 2, 3, 4] ∧
      r.2.state.depth = 0 ∧ r.2.state.opened = [] ∧ r.2.state.sharing = true := by
  intro inner f o e r
  have he : Reachable o e := .new _ _
  have hret : e.Returns 2 Graph.empty.view [.value (.text "a")] := by decide +kernel
  have houtcome : r.1 = .failed (.io "sink full") := by decide +kernel
  have hbytes : r.2.state.sink.bytes = [0xD8, 28, 0x81, 0xA1, 1, 2, 3, 4] := by decide +kernel
  obtain ⟨hdepth, hopened, hsharing, _⟩ := run_restores he hret
  exact ⟨he, hret, houtcome, hbytes, hdepth, hopened, hsharing⟩

end Encoder

end CborGraph
