import CborGraph.Proofs.Acyclic
import CborGraph.Proofs.Journal

/-!
# Sharing on and sharing off

From a value that does not lead back to itself an encoding with sharing off fails as one with
sharing on does, or both succeed. What it writes is what is read in the journal of the other
if the marks are left out and each reference stands for its container in full:
`encode_unshared`.

The two runs visit different positions, for with sharing on a container is entered once. The
proof is by induction on the walk with sharing on, beside the walk with sharing off, with one
lemma for each kind of position, from `Matches.scalar` on. It carries that a container that has a mark is
open, or was written to its end without an error, `Marks.Written`. A reference does not lead to
an open container, for there are no cycles.
-/

namespace CborGraph

/-! ### Runs -/

namespace State

/-- The run from `s` ended as `p` says, and what it wrote is read as the bytes of `p`. -/
structure Unshares (full : Ident → Bytes) (P : Ident → Prop) (p : Outcome × Bytes) (s : State)
    (r : Outcome × State) : Prop where
  outcome : r.1 = p.1
  tells : Tells full P p.2 s r.2

namespace Unshares

variable {full : Ident → Bytes} {P : Ident → Prop} {p q : Outcome × Bytes} {s : State}
variable {r : Outcome × State} {key found : TypeKey} {id : Ident}

theorem of_quiet {marks : Marks} (h : Did p marks s r) (hq : Quiet s r.2) : Unshares full P p s r :=
  ⟨h.outcome, .of_quiet hq h.bytes⟩

/-- Operations are run one after the other, the second only if the first comes to its end. -/
theorem andThen {call : View → Value → Run} {view : View} {op : Op} {ops : List Op}
    (h : Unshares full P p s (Op.run call view op s))
    (hk : p.1 = .done → Unshares full P q (Op.run call view op s).2
      (Op.runAll call view ops (Op.run call view op s).2)) :
    Unshares full P (Step.andThen p q) s (Op.runAll call view (op :: ops) s) := by
  rw [Op.runAll]
  rcases hr : Op.run call view op s with ⟨o, t⟩
  rw [hr] at h hk
  obtain ⟨o', bs⟩ := p
  obtain rfl : o = o' := h.outcome
  cases o with
  | done => exact ⟨(hk rfl).outcome, h.tells.trans (hk rfl).tells⟩
  | failed e => exact ⟨rfl, h.tells⟩
  | exhausted => exact ⟨rfl, h.tells⟩

/-- What is done inside a call is done by the call. -/
theorem ascend (h : Unshares full P p (s.descend key found) r) :
    Unshares full P p s (r.1, r.2.ascend) where
  outcome := h.outcome
  tells := (Tells.of_quiet (.descend s key found)
    ((bytes_descend s key found).trans (List.append_nil _).symm)).trans h.tells

/-- A container that was marked before is read in full. -/
theorem referred {index : Nat} (hid : P id) :
    Unshares full P (.done, full id) s
      (.done, ((s.descend key found).record (.referred id index)).ascend) := by
  have hread : Tells full P (full id) (s.descend key found)
      ((s.descend key found).record (.referred id index)) := by
    refine .record (e := .referred id index) ?_ (s.descend key found)
    rintro _ _ ⟨⟩
    exact hid
  exact ascend (r := (.done, _)) ⟨rfl, hread⟩

/-- What is done inside a container is done by its writer, after the header without the mark. -/
theorem outside {major : Major} {length : Nat} (hon : s.sharing = true)
    (h : Unshares full P p (s.inside key found id major length) r) :
    Unshares full P (Step.andThen (.done, header false major length) p) s
      (r.1, (r.2.leave id).ascend) where
  outcome := h.outcome
  tells := by
    have hheader : Tells full P (header false major length) s (s.inside key found id major length) := by
      have hdescend : (s.descend key found).sharing = true := hon
      refine ⟨[.entered id, .wrote (Head.ofLength major length), .marked id,
        .dispatched key (some found)], ?_, ?_, by simp⟩
      · rw [inside, hdescend]
        rfl
      · simp [Event.unshared, Event.bytes, header]
    have hleave : Tells full P [] r.2 (r.2.leave id).ascend :=
      .of_quiet (.record (e := .left id) rfl _) (bytes_record _ _)
    have hall := (hheader.trans h.tells).trans hleave
    rwa [List.append_nil] at hall

end Unshares

end State

section

variable {settings : Settings} {view : View}

/-- A value that is refused is refused by a quiet run. -/
theorem quiet_encodeValue_refused (limit : Nat) {v : Value} {e : EncodeError} (h : view.refusal? settings v = some e)
    (s : State) : s.Quiet (encodeValue builtinTable settings (limit + 1) view v s).2 := by
  cases v with
  | container id =>
    have hc : view.contents? id = none := by
      by_contra hne
      simp [View.refusal?, hne] at h
    rw [encodeValue_unreadable settings limit hc]
    exact (State.Quiet.beginDocument s).trans (.record rfl _)
  | naiveDateTime t =>
    have hrank : (Value.naiveDateTime t).rank ≠ 0 := by simp [Value.rank]
    exact quiet_encodeValue_scalar settings _ view hrank s
  | _ => cases h

/-- An empty container is written by a quiet run. -/
theorem quiet_encodeValue_empty (settings : Settings) (limit : Nat) {id : Ident} {c : Contents} (hc : view.contents? id = some c)
    (h0 : c.length = 0) (s : State) :
    s.Quiet (encodeValue builtinTable settings (limit + 1) view (.container id) s).2 := by
  obtain ⟨key, found, hrun⟩ := encodeValue_contents settings limit hc s
  rw [hrun, Op.run, if_pos h0]
  exact ((State.Quiet.beginDocument s).trans (.descend _ key found)).trans (.wrote _ _)

end

/-! ### The two walks -/

section

variable {settings : Settings} {g : Graph} {full : Ident → Bytes} {opened : List Ident}
variable {marks marks₁ marks' : Marks} {v : Value} {vs : List Value} {w u : Walk} {limit : Nat}

open State in
/-- What the walk through the first value says of the run for it. -/
theorem Walks.did_head (hw : Walks settings g.view true opened marks [v] w marks₁)
    (ht : Tracked g true opened marks) (hl : w.height ≤ limit) {s : State}
    (hs : Before true opened marks (v :: vs) s) :
    Did (Step.run (w.steps true settings.compactFloats)) marks₁ s
      (encodeValue builtinTable settings limit g.view v s) := by
  have hone : Before true opened marks [v] s :=
    ⟨hs.room, hs.unopened, hs.sharing, hs.opened, hs.marks,
      fun h0 => ⟨le_rfl, fun _ => (hs.fresh h0).2 (List.cons_ne_nil v vs)⟩⟩
  have hrun := hw.run ht hl hone
  rwa [List.map_singleton, runAll_singleton] at hrun

/-- Before values in a run with sharing on, beside a walk through them with sharing off. -/
structure Beside (settings : Settings) (g : Graph) (full : Ident → Bytes) (opened : List Ident)
    (marks : Marks) (vs : List Value) (u : Walk) (s : State) : Prop where
  tracked : Tracked g true opened marks
  before : State.Before true opened marks vs s
  clear : Clear g.view opened vs
  written : Marks.Written settings g.view full opened marks
  walk : ∃ k k', Walks settings g.view false opened k vs u k'

/-- The run for values does what is done with sharing off, and after it the marks are of what was
written. -/
structure Matches (settings : Settings) (g : Graph) (full : Ident → Bytes) (opened : List Ident)
    (marks' : Marks) (p : Outcome × Bytes) (s : State) (r : Outcome × State) : Prop where
  run : State.Unshares full (fun id => WrittenAs settings g.view id (full id)) p s r
  written : p.1 = .done → Marks.Written settings g.view full opened marks'

namespace Matches

variable {s : State} {k k' : Marks} {first : Walk} {id : Ident} {c : Contents}

open State in
/-- The first value is encoded, and then the others. -/
theorem cons (hw : Walks settings g.view true opened marks [v] w marks₁) (hl : w.height ≤ limit)
    (h : Beside settings g full opened marks (v :: vs) u s)
    (hfirst : ∀ first k k', Walks settings g.view false opened k [v] first k' →
      Matches settings g full opened marks₁ (Step.run (first.steps false settings.compactFloats)) s
        (encodeValue builtinTable settings limit g.view v s))
    (hrest : ∀ rest t, Beside settings g full opened marks₁ vs rest t →
      Matches settings g full opened marks' (Step.run (rest.steps false settings.compactFloats)) t
        (Op.runAll (encodeValue builtinTable settings limit) g.view (vs.map Op.value) t)) :
    Matches settings g full opened marks' (Step.run (u.steps false settings.compactFloats)) s
      (Op.runAll (encodeValue builtinTable settings limit) g.view ((v :: vs).map Op.value) s) := by
  obtain ⟨k, k', hu⟩ := h.walk
  obtain ⟨first, rest, k₁, hu₁, hu₂, hsteps⟩ := hu.split
  have hhead := hfirst first k k₁ hu₁
  have hdid := hw.did_head h.tracked hl h.before
  rw [hsteps, Step.run_append]
  generalize Step.run (first.steps false settings.compactFloats) = p at hhead
  have hafter : p.1 = .done →
      Matches settings g full opened marks' (Step.run (rest.steps false settings.compactFloats))
        (encodeValue builtinTable settings limit g.view v s).2
        (Op.runAll (encodeValue builtinTable settings limit) g.view (vs.map Op.value)
          (encodeValue builtinTable settings limit g.view v s).2) := by
    intro hp
    have hdone : (Step.run (w.steps true settings.compactFloats)).1 = .done := by
      rw [← hdid.outcome, hhead.run.outcome, hp]
    exact hrest rest _ ⟨hw.tracked h.tracked, h.before.after (hdid.wrote hdone), h.clear.tail,
      hhead.written hp, k₁, k', hu₂⟩
  constructor
  · have hop : Unshares full (fun id => WrittenAs settings g.view id (full id)) p s
        (Op.run (encodeValue builtinTable settings limit) g.view (.value v) s) := hhead.run
    exact hop.andThen fun hp => (hafter hp).run
  · intro hp
    obtain ⟨o, bs⟩ := p
    cases o with
    | done => exact (hafter rfl).written hp
    | failed e => cases hp
    | exhausted => cases hp

open State in
/-- A value matches that is written, or refused, by a quiet run. -/
theorem of_quiet (hw : Walks settings g.view true opened marks [v] w marks) (hl : w.height ≤ limit)
    (h : Beside settings g full opened marks (v :: vs) u s)
    (hquiet : Quiet s (encodeValue builtinTable settings limit g.view v s).2) :
    Matches settings g full opened marks (Step.run (w.steps true settings.compactFloats)) s
      (encodeValue builtinTable settings limit g.view v s) :=
  ⟨.of_quiet (hw.did_head h.tracked hl h.before) hquiet, fun _ => h.written⟩

theorem scalar {item : Item} (hv : settings.item? v = some item) (hl : scalarDepth ≤ limit)
    (h : Beside settings g full opened marks (v :: vs) u s)
    (hfirst : Walks settings g.view false opened k [v] first k') :
    Matches settings g full opened marks (Step.run (first.steps false settings.compactFloats)) s
      (encodeValue builtinTable settings limit g.view v s) := by
  obtain ⟨rfl, rfl⟩ := (Walks.scalar hv .done).unique hfirst
  have hrank : v.rank ≠ 0 := by cases v <;> simp [Value.rank, Settings.item?] at hv ⊢
  exact of_quiet (.scalar hv .done) (max_le hl (Nat.zero_le _)) h
    (quiet_encodeValue_scalar settings limit g.view hrank s)

theorem refused {e : EncodeError} (hv : g.view.refusal? settings v = some e)
    (h : Beside settings g full opened marks (v :: vs) u s)
    (hfirst : Walks settings g.view false opened k [v] first k') :
    Matches settings g full opened marks (Step.run (first.steps false settings.compactFloats)) s
      (encodeValue builtinTable settings (limit + 1) g.view v s) := by
  obtain ⟨rfl, rfl⟩ := (Walks.refused hv .done).unique hfirst
  exact of_quiet (.refused hv .done) (max_le (Nat.le_add_left 1 _) (Nat.zero_le _)) h
    (quiet_encodeValue_refused limit hv s)

theorem empty (hc : g.view.contents? id = some c) (h0 : c.length = 0)
    (h : Beside settings g full opened marks (.container id :: vs) u s)
    (hfirst : Walks settings g.view false opened k [.container id] first k') :
    Matches settings g full opened marks (Step.run (first.steps false settings.compactFloats)) s
      (encodeValue builtinTable settings (limit + 1) g.view (.container id) s) := by
  obtain ⟨rfl, rfl⟩ := (Walks.empty hc h0 .done).unique hfirst
  exact of_quiet (.empty hc h0 .done) (max_le (Nat.le_add_left 1 _) (Nat.zero_le _)) h
    (quiet_encodeValue_empty settings limit hc h0 s)

open State in
/-- A tag matches if what it stands for does, after the head. -/
theorem tag {number : UInt64} (h : Beside settings g full opened marks (.tag number v :: vs) u s)
    (hfirst : Walks settings g.view false opened k [.tag number v] first k')
    (hpayload : ∀ payload t, Beside settings g full opened marks [v] payload t →
      Matches settings g full opened marks₁ (Step.run (payload.steps false settings.compactFloats)) t
        (Op.runAll (encodeValue builtinTable settings limit) g.view [.value v] t)) :
    Matches settings g full opened marks₁ (Step.run (first.steps false settings.compactFloats)) s
      (encodeValue builtinTable settings (limit + 1) g.view (.tag number v) s) := by
  obtain ⟨payload, rfl, hwalk⟩ := hfirst.of_tag
  have hsteps : Step.run ((Walk.tag number payload .done).steps false settings.compactFloats) =
      Step.andThen (.done, Head.bytes .tag number)
        (Step.run (payload.steps false settings.compactFloats)) := by
    simp [Walk.steps, Step.run, Step.result]
  have hin : Before true opened marks [v, v] (s.descend (.kind .tag) (.kind .tag)) := h.before.descend
  have hhead : Did (.done, Head.bytes .tag number) _ _ (Op.run (encodeValue builtinTable settings limit)
      g.view (.write (Head.bytes .tag number)) (s.descend (.kind .tag) (.kind .tag))) :=
    .write hin.room _
  have hwrote := hhead.wrote rfl
  rw [hin.marks] at hwrote
  have hinside := hpayload payload _ ⟨h.tracked, hin.after hwrote, h.clear.payload, h.written, k, k', hwalk⟩
  have hwrite : Unshares full (fun id => WrittenAs settings g.view id (full id)) _ _ _ :=
    .of_quiet hhead (.wrote _ _)
  rw [hsteps, encodeValue_tag _ _ _ h.before.ready]
  exact ⟨(hwrite.andThen fun _ => hinside.run).ascend, hinside.written⟩

open State in
/-- A container that was marked before matches. With sharing off it is written again, as it was
written in full when it was marked. -/
theorem again {index : Nat} (hc : g.view.contents? id = some c) (h0 : c.length ≠ 0)
    (hm : marks.lookup id = some index) (h : Beside settings g full opened marks (.container id :: vs) u s)
    (hfirst : Walks settings g.view false opened k [.container id] first k') :
    Matches settings g full opened marks (Step.run (first.steps false settings.compactFloats)) s
      (encodeValue builtinTable settings (limit + 1) g.view (.container id) s) := by
  have hid : WrittenAs settings g.view id (full id) :=
    (h.written id ⟨index, hm⟩).resolve_left h.clear.not_mem
  obtain ⟨key, found, hrun⟩ := encodeValue_container settings limit hc h.before.ready
  have hin : Before true opened marks (.container id :: vs) (s.descend key found) := h.before.descend
  have ha : (s.descend key found).admission id = .marked index :=
    admission_marked hin.sharing (by rw [hin.marks, hm])
  have hcall : encodeValue builtinTable settings (limit + 1) g.view (.container id) s =
      (.done, ((s.descend key found).record (.referred id index)).ascend) := by
    rw [hrun, Op.run, if_neg h0]
    simp only [Owner.ident, ha, put_eq hin.room]
  have hsame : Step.run (first.steps false settings.compactFloats) = (.done, full id) := by
    obtain ⟨w, hw, hdone⟩ := hid
    have hout := hw.of_clear (.of_acyclic (h.clear.acyclic _ List.mem_cons_self)) h.clear.head k
    obtain ⟨rfl, -⟩ := hout.unique hfirst
    exact hdone
  rw [hsame, hcall]
  exact ⟨.referred hid, fun _ => h.written⟩

open State in
/-- A container that is entered matches if what is in it does. Then it was written in full. -/
theorem entered (hfull : ∀ id bs, WrittenAs settings g.view id bs → full id = bs)
    (hc : g.view.contents? id = some c) (h0 : c.length ≠ 0) (he : Enters true opened marks id)
    (h : Beside settings g full opened marks (.container id :: vs) u s)
    (hfirst : Walks settings g.view false opened k [.container id] first k')
    (hbody : ∀ body t,
      Beside settings g full (id :: opened) (marksInside true opened marks id) c.values body t →
        Matches settings g full (id :: opened) marks₁
          (Step.run (body.steps false settings.compactFloats)) t
          (Op.runAll (encodeValue builtinTable settings limit) g.view (c.values.map Op.value) t)) :
    Matches settings g full opened marks₁ (Step.run (first.steps false settings.compactFloats)) s
      (encodeValue builtinTable settings (limit + 1) g.view (.container id) s) := by
  have hid : (Step.run (first.steps false settings.compactFloats)).1 = .done →
      WrittenAs settings g.view id (full id) := by
    intro hdone
    have hwritten := WrittenAs.of_walk hfirst h.clear.head hdone
    rwa [hfull id _ hwritten]
  obtain ⟨body, rfl, hwalk⟩ := hfirst.of_container hc h0 h.clear.not_mem
  have hsteps : Step.run ((Walk.entered id c body .done).steps false settings.compactFloats) =
      Step.andThen (.done, header false c.major c.length)
        (Step.run (body.steps false settings.compactFloats)) := by
    simp [Walk.steps, Step.run, Step.result]
  have he' : if s.sharing then s.marks.lookup id = none else id ∉ s.opened := by
    rw [h.before.sharing, h.before.opened, h.before.marks]
    exact he
  obtain ⟨key, found, hrun⟩ := encodeValue_enter settings limit hc h0 h.before.ready he'
  have hinside := hbody body _ ⟨h.tracked.inside hc h0 he, h.before.inside h.tracked hc h0 he key found,
    h.clear.inside hc, h.written.inside, _, _, hwalk⟩
  rw [hsteps] at hid ⊢
  rw [hrun]
  exact ⟨.outside h.before.sharing hinside.run, fun hp => (hinside.written hp).outside (hid hp)⟩

end Matches

/-- **A run with sharing on does what is done with sharing off**, read in full, by induction on the
walk with sharing on. -/
theorem Walks.matches_unshared (hfull : ∀ id bs, WrittenAs settings g.view id bs → full id = bs)
    (hw : Walks settings g.view true opened marks vs w marks') :
    ∀ {limit s u}, w.height ≤ limit → Beside settings g full opened marks vs u s →
      Matches settings g full opened marks' (Step.run (u.steps false settings.compactFloats)) s
        (Op.runAll (encodeValue builtinTable settings limit) g.view (vs.map Op.value) s) := by
  induction hw with
  | done =>
    intro limit s u _ h
    obtain ⟨k, k', hu⟩ := h.walk
    cases hu
    exact ⟨⟨rfl, .of_quiet (.of_eq rfl) (List.append_nil _).symm⟩, fun _ => h.written⟩
  | scalar hv _ ih =>
    intro limit s u hl h
    obtain ⟨hl₁, hl₂⟩ := max_le_iff.mp hl
    refine .cons (.scalar hv .done) (max_le hl₁ (Nat.zero_le _)) h (fun first k k' hfirst => ?_)
      fun rest t => ih hl₂
    exact .scalar hv hl₁ h hfirst
  | refused hv _ ih =>
    intro limit s u hl h
    obtain ⟨hl₁, hl₂⟩ := max_le_iff.mp hl
    obtain ⟨limit, rfl⟩ := Nat.exists_eq_add_of_le' hl₁
    refine .cons (.refused hv .done) (max_le hl₁ (Nat.zero_le _)) h (fun first k k' hfirst => ?_)
      fun rest t => ih hl₂
    exact .refused hv h hfirst
  | tag hp _ ihp ih =>
    intro limit s u hl h
    obtain ⟨hl₁, hl₂⟩ := max_le_iff.mp hl
    obtain ⟨limit, rfl⟩ := Nat.exists_eq_add_of_le' (le_trans (Nat.le_add_left 1 _) hl₁)
    refine .cons (.tag hp .done) (max_le hl₁ (Nat.zero_le _)) h (fun first k k' hfirst => ?_)
      fun rest t => ih hl₂
    exact .tag h hfirst fun payload t => ihp (Nat.le_of_succ_le_succ hl₁)
  | empty hc h0 _ ih =>
    intro limit s u hl h
    obtain ⟨hl₁, hl₂⟩ := max_le_iff.mp hl
    obtain ⟨limit, rfl⟩ := Nat.exists_eq_add_of_le' hl₁
    refine .cons (.empty hc h0 .done) (max_le hl₁ (Nat.zero_le _)) h (fun first k k' hfirst => ?_)
      fun rest t => ih hl₂
    exact .empty hc h0 h hfirst
  | again hc h0 hon hm _ ih =>
    intro limit s u hl h
    obtain ⟨hl₁, hl₂⟩ := max_le_iff.mp hl
    obtain ⟨limit, rfl⟩ := Nat.exists_eq_add_of_le' hl₁
    refine .cons (.again hc h0 hon hm .done) (max_le hl₁ (Nat.zero_le _)) h
      (fun first k k' hfirst => ?_) fun rest t => ih hl₂
    exact .again hc h0 hm h hfirst
  | cyclic _ _ hoff _ _ _ => cases hoff
  | entered hc h0 hnew hb _ ihb ih =>
    intro limit s u hl h
    obtain ⟨hl₁, hl₂⟩ := max_le_iff.mp hl
    obtain ⟨limit, rfl⟩ := Nat.exists_eq_add_of_le' (le_trans (Nat.le_add_left 1 _) hl₁)
    refine .cons (.entered hc h0 hnew hb .done) (max_le hl₁ (Nat.zero_le _)) h
      (fun first k k' hfirst => ?_) fun rest t => ih hl₂
    exact .entered hfull hc h0 hnew h hfirst fun body t => ihb (Nat.le_of_succ_le_succ hl₁)

end

/-! ### Documents -/

/-- A container that was written in full is a document of its own. -/
theorem WrittenAs.encode {o : Options} (ho : o.overrides = []) {g : Graph} {id : Ident} {bs : Bytes}
    (h : WrittenAs o.toSettings g.view id bs) :
    encodeToBytes { o with sharing := false } g (.container id) = some (.ok bs) := by
  obtain ⟨w, hw, hrun⟩ := h
  obtain ⟨u, m, hu, houtcome, hbytes⟩ :=
    encode_walk (o := { o with sharing := false }) ho g (.container id)
      (show Sink.unlimited.room = none from rfl)
  obtain ⟨rfl, -⟩ := hw.unique hu
  rw [hrun] at houtcome hbytes
  unfold encodeToBytes
  rcases hr : CborGraph.encode { o with sharing := false } g (.container id) .unlimited with ⟨out, sink⟩
  rw [hr] at houtcome hbytes
  obtain rfl : out = .done := houtcome
  rw [bytesOrError, hbytes]
  rfl

/-- **Sharing on and sharing off agree on values that do not lead back to themselves.** Without
entries of the caller and with a sink that has no limit, both fail with the same error, or both
succeed. What is written with sharing off is what the journal of the other tells if the marks
are left out and, for each reference, the container is taken that it was written for, in full; it
is what an encoding of that container with sharing off writes, which succeeds. -/
theorem encode_unshared {o : Options} (ho : o.overrides = []) {g : Graph} {v : Value}
    (hv : g.view.Acyclic v) {sink : Sink} (hroom : sink.room = none) :
    let on := encode { o with sharing := true } g v sink
    let off := encode { o with sharing := false } g v sink
    (on.1 = .done ∧ off.1 = .done ∨ ∃ e, on.1 = .failed e ∧ off.1 = .failed e) ∧
      ∃ (events : List Event) (full : Ident → Bytes),
        on.2.journal = events.reverse ++ sink.journal ∧
        on.2.bytes = sink.bytes ++ events.flatMap Event.bytes ∧
        off.2.bytes = sink.bytes ++ events.flatMap (Event.unshared full) ∧
        ∀ id index, .referred id index ∈ events →
          encodeToBytes { o with sharing := false } g (.container id) = some (.ok (full id)) := by
  intro on off
  let full : Ident → Bytes := fun id =>
    (encode { o with sharing := false } g (.container id) .unlimited).2.bytes
  have hfull : ∀ id bs, WrittenAs o.toSettings g.view id bs → full id = bs := by
    intro id bs h
    have hbytes := h.encode ho
    unfold encodeToBytes at hbytes
    simp only [full]
    rcases hr : encode { o with sharing := false } g (.container id) .unlimited with ⟨_ | e | _, t⟩
    · rw [hr] at hbytes
      simpa [bytesOrError] using hbytes
    · rw [hr] at hbytes
      simp [bytesOrError] at hbytes
    · rw [hr] at hbytes
      simp [bytesOrError] at hbytes
  obtain ⟨w, marks, hw, hheight⟩ := g.exists_walk o.toSettings true v
  obtain ⟨u, k, hu, houtcome, hbytes⟩ := encode_walk (o := { o with sharing := false }) ho g v hroom
  have hbefore : State.Before true [] [] [v] (.initial sink true 0) :=
    ⟨hroom, fun n hn => absurd hn List.not_mem_nil, rfl, rfl, rfl, fun _ => ⟨le_rfl, fun _ => rfl⟩⟩
  have hwritten : Marks.Written o.toSettings g.view full [] [] := by
    rintro id ⟨index, hm⟩
    cases hm
  have hbeside : Beside o.toSettings g full [] [] [v] u (.initial sink true 0) :=
    ⟨.nil g true, hbefore, .of_acyclic hv, hwritten, [], k, hu⟩
  have hrun := (hw.matches_unshared hfull hheight hbeside).run
  rw [List.map_singleton, runAll_singleton, run_value,
    ← Options.table_of_overrides (o := { o with sharing := true }) ho] at hrun
  -- The call is given a name, so that the limit of nesting is not counted down.
  obtain ⟨r, hr⟩ : ∃ r, encodeValue ({ o with sharing := true } : Options).table o.toSettings
      (Encoder.nestingLimit g + v.tagDepth) g.view v (.initial sink true 0) = r := ⟨_, rfl⟩
  rw [hr] at hrun
  have hon : on = (r.1, r.2.sink) := encode_eq (o := { o with sharing := true }) hr
  obtain ⟨past, hjournal, hread, hrefers⟩ := hrun.tells
  have hsame : on.1 = off.1 := by rw [hon, houtcome, hrun.outcome]
  refine ⟨?_, past.reverse, full, ?_, ?_, ?_, ?_⟩
  · rcases hout : on.1 with _ | e | _
    · exact .inl ⟨rfl, by rw [← hsame, hout]⟩
    · exact .inr ⟨e, rfl, by rw [← hsame, hout]⟩
    · rw [hsame, houtcome] at hout
      exact absurd hout (Step.run_ne_exhausted _)
  · rw [hon, List.reverse_reverse]
    exact hjournal
  · rw [hon, Sink.bytes, hjournal, List.reverse_append, List.flatMap_append]
    rfl
  · rw [hbytes, hread]
  · intro id index hmem
    exact (hrefers id index (List.mem_reverse.mp hmem)).encode ho

/-- A map is met three times, once under a tag with the number of a mark, which is kept. The key in
it is an array, which is marked as well. -/
theorem encode_unshared_three_times :
    let g : Graph := ⟨#[.array [.container (.stored 1), .tag 28 (.container (.stored 1)),
      .container (.stored 1)], .map [(.container (.stored 2), .null)], .array [.integer 7]]⟩
    let v : Value := .container (.stored 0)
    let on := encode { sharing := true } g v .unlimited
    let off := encode {} g v .unlimited
    ({} : Options).overrides = [] ∧ g.view.Acyclic v ∧ Sink.unlimited.room = none ∧
      on.1 = .done ∧ off.1 = .done ∧
      on.2.bytes = [0xD8, 28, 0x83, 0xD8, 28, 0xA1, 0xD8, 28, 0x81, 7, 0xF6, 0xD8, 28, 0xD8, 29, 1,
        0xD8, 29, 1] ∧
      off.2.bytes = [0x83, 0xA1, 0x81, 7, 0xF6, 0xD8, 28, 0xA1, 0x81, 7, 0xF6, 0xA1, 0x81, 7, 0xF6] ∧
      ∃ (events : List Event) (full : Ident → Bytes), events.flatMap Event.bytes = on.2.bytes ∧
        events.flatMap (Event.unshared full) = off.2.bytes := by
  intro g v on off
  have hv : g.view.Acyclic v := by decide +kernel
  have hdone : on.1 = .done := by decide +kernel
  have hwritten : on.2.bytes = [0xD8, 28, 0x83, 0xD8, 28, 0xA1, 0xD8, 28, 0x81, 7, 0xF6, 0xD8, 28,
      0xD8, 29, 1, 0xD8, 29, 1] := by decide +kernel
  have hfull : off.2.bytes = [0x83, 0xA1, 0x81, 7, 0xF6, 0xD8, 28, 0xA1, 0x81, 7, 0xF6, 0xA1, 0x81, 7,
      0xF6] := by decide +kernel
  obtain ⟨houtcome, events, full, _, hon, hoff, _⟩ :=
    encode_unshared (o := {}) rfl hv (show Sink.unlimited.room = none from rfl)
  rcases houtcome with ⟨_, hdone'⟩ | ⟨e, he, _⟩
  · exact ⟨rfl, hv, rfl, hdone, hdone', hwritten, hfull, events, full, hon.symm, hoff.symm⟩
  · rw [hdone] at he
    cases he

end CborGraph
