import CborGraph.Proofs.Journal
import CborGraph.Proofs.Markless
import CborGraph.Proofs.Reuse

/-!
# Sharing that is suspended

An encoder function may have a value encoded under a tag with sharing off, as those of decimals and
rationals do. What is written there is what would be written if nothing were marked, since with
sharing off marks are not looked at, and sharing, marks and open containers are afterwards as they
were before.

`Op.Begins` says which operations are begun while others are run, and in what states. In all of
these sharing is off, also if it was suspended again and put back.

Main statement: `Op.semantic_suspended`, whatever the caller's own encoder functions do.
-/

namespace CborGraph

/-- The run with sharing off and nothing marked, after which sharing and marks are as before. -/
def Run.unshared (r : Run) : Run := fun s =>
  ((r ((s.withSharing false).withMarks [])).1,
    ((r ((s.withSharing false).withMarks [])).2.withSharing s.sharing).withMarks s.marks)

/-- If the head of a container is written, its body is run with the container open. -/
theorem Run.enclosed_of_put {s t : State} {head : Bytes} (h : State.put (.wrote head) s = (.done, t))
    (id : Ident) (body : Run) : Run.enclosed head id body s =
      ((body (t.enter id)).1, (body (t.enter id)).2.leave id) := by
  rw [Run.enclosed, Run.andThen, h]

/-! ### Histories -/

/-- The state with nothing written and nothing noted. -/
def State.forget (s : State) : State :=
  { s with sink := { s.sink with journal := [] }, notes := [] }

namespace Run.Oblivious

variable {r : Run}

/-- What is done from a state is what is done without its history, after the history. -/
theorem eq_after (h : r.Oblivious) (s : State) :
    r s = ((r s.forget).1, (r s.forget).2.after s.sink.journal s.notes) :=
  h s.sink.journal s.notes s.forget

/-- Notes are added to those that there are. -/
theorem exists_notes (h : r.Oblivious) (s : State) : ∃ told, (r s).2.notes = told ++ s.notes :=
  ⟨_, congrArg (·.2.notes) (h.eq_after s)⟩

/-- **From states that differ in their history only the same is done**: the same events follow, and
the states after differ in their history only. -/
theorem of_forget (h : r.Oblivious) {t u : State} (hsame : t.forget = u.forget) :
    (r t).1 = (r u).1 ∧ (r t).2.forget = (r u).2.forget ∧
      ∃ later, (r t).2.sink.journal = later ++ t.sink.journal ∧
        (r u).2.sink.journal = later ++ u.sink.journal := by
  rw [h.eq_after t, h.eq_after u, hsame]
  exact ⟨rfl, rfl, _, rfl, rfl⟩

end Run.Oblivious

/-! ### Operations that are begun -/

section

variable (table : Table EncodeFn) (settings : Settings) (caught : Bool)

/-- While the operations are run from a state, an operation is begun in the other state, with a
limit and with what is in every container there. If `caught` is false, no attempt is entered on the
way. -/
inductive Op.Begins : Nat → View → List Op → State → Nat → View → Op → State → Prop
  /-- The first of the operations. -/
  | first {limit view op ops s} : Begins limit view (op :: ops) s limit view op s
  /-- After the first operation has succeeded. -/
  | later {limit view op ops s t limit' view' op' u}
      (hop : Op.run (encodeValue table settings limit) view op s = (.done, t))
      (h : Begins limit view ops t limit' view' op' u) :
      Begins limit view (op :: ops) s limit' view' op' u
  /-- In the function of a value. -/
  | called {limit view d ops s v cells key f limit' view' op' u}
      (hd : d.place (fun k => .temporary (s.next + k)) [] #[] = (v, cells))
      (hfound : table.resolve (view.extend s.next cells) v = some (key, f))
      (h : Begins limit (view.extend s.next cells) (f settings (view.extend s.next cells) v)
        (({ s with next := s.next + cells.size } : State).beginDocument.descend
          ((view.extend s.next cells).typeKey v) key) limit' view' op' u) :
      Begins (limit + 1) view (.encode d :: ops) s limit' view' op' u
  /-- While sharing is suspended. -/
  | suspended {limit view body ops s limit' view' op' u}
      (h : Begins limit view body (s.withSharing false) limit' view' op' u) :
      Begins limit view (.suspended body :: ops) s limit' view' op' u
  /-- While something is attempted. -/
  | attempted {limit view body ops s limit' view' op' u} (hc : caught = true)
      (h : Begins limit view body s limit' view' op' u) :
      Begins limit view (.attempt body :: ops) s limit' view' op' u
  /-- In a container that is not marked. -/
  | plain {limit view owner major length body ops s t id w limit' view' op' u} (h0 : length ≠ 0)
      (hid : Owner.ident owner s = (id, t)) (ha : t.admission id = .plain)
      (hhead : State.put (.wrote (Head.ofLength major length)) t = (.done, w))
      (h : Begins limit view body (w.enter id) limit' view' op' u) :
      Begins limit view (.container owner major length body :: ops) s limit' view' op' u
  /-- In a container that is marked. -/
  | fresh {limit view owner major length body ops s t id m w limit' view' op' u} (h0 : length ≠ 0)
      (hid : Owner.ident owner s = (id, t)) (ha : t.admission id = .fresh)
      (hmark : State.put (.marked id) (t.mark id) = (.done, m))
      (hhead : State.put (.wrote (Head.ofLength major length)) m = (.done, w))
      (h : Begins limit view body (w.enter id) limit' view' op' u) :
      Begins limit view (.container owner major length body :: ops) s limit' view' op' u

end

/-- In `u` sharing is off, the marks are those of `s`, and the containers that are open in `s` are
open, perhaps with more inside them. -/
structure State.Unshared (s u : State) : Prop where
  sharing : u.sharing = false
  marks : u.marks = s.marks
  depth : s.depth ≤ u.depth
  opened : s.opened <:+ u.opened

/-- A run from the state has ended in the error, or the error was caught by an attempt that took
note of it. -/
def State.Reports (s : State) (caught : Bool) (e : EncodeError) (r : Outcome × State) : Prop :=
  r.1 = .failed e ∨ caught = true ∧ ∃ told, r.2.notes = told ++ s.notes ∧ .failed e ∈ told

namespace State

variable {s t u : State}

namespace Unshared

theorem trans (h : Unshared s t) (h' : Unshared t u) : Unshared s u where
  sharing := h'.sharing
  marks := h'.marks.trans h.marks
  depth := le_trans h.depth h'.depth
  opened := h.opened.trans h'.opened

theorem of_eq (hoff : t.sharing = false) (hmarks : t.marks = s.marks) (hdepth : s.depth ≤ t.depth)
    (hopened : t.opened = s.opened) : Unshared s t :=
  ⟨hoff, hmarks, hdepth, hopened ▸ List.suffix_rfl⟩

theorem depth_ne_zero (h : Unshared s t) (hd : s.depth ≠ 0) : t.depth ≠ 0 :=
  fun h0 => hd (Nat.le_zero.mp (h0 ▸ h.depth))

theorem ident (hoff : s.sharing = false) {owner : Owner} {id : Ident}
    (hid : owner.ident s = (id, t)) : Unshared s t := by
  cases owner <;> cases hid <;> exact .of_eq hoff rfl le_rfl rfl

theorem put (hoff : s.sharing = false) {e : Event} {o : Outcome} (he : State.put e s = (o, t)) :
    Unshared s t := by
  obtain rfl : (State.put e s).2 = t := by rw [he]
  exact .of_eq ((sharing_put e s).trans hoff) (marks_put e s) (depth_put e s).ge (opened_put e s)

theorem enter (hoff : s.sharing = false) {id : Ident} (hid : id ∉ s.opened) :
    Unshared s (s.enter id) :=
  ⟨hoff, rfl, le_rfl, opened_enter hid ▸ List.suffix_cons id _⟩

end Unshared

/-- A write changes the sink only. -/
theorem exists_put (e : Event) (s : State) : ∃ o sink, State.put e s = (o, { s with sink }) := by
  unfold State.put
  rcases s.sink.put e with ⟨_ | err, sink⟩
  · exact ⟨.done, sink, rfl⟩
  · exact ⟨.failed err, sink, rfl⟩

theorem notes_put {e : Event} {o : Outcome} (h : State.put e s = (o, t)) : t.notes = s.notes := by
  obtain rfl : (State.put e s).2 = t := by rw [h]
  rw [put_snd]

theorem notes_ident {owner : Owner} {id : Ident} (h : owner.ident s = (id, t)) :
    t.notes = s.notes := by
  cases owner <;> cases h <;> rfl

theorem notes_beginDocument (s : State) : s.beginDocument.notes = s.notes := by
  unfold beginDocument
  split <;> rfl

namespace Reports

variable {caught : Bool} {e : EncodeError} {r r' : Outcome × State}

/-- What is reported after notes were taken is reported from before. -/
theorem earlier {told : List Note} (h : t.Reports caught e r) (htold : t.notes = told ++ s.notes) :
    s.Reports caught e r := by
  refine h.imp_right fun ⟨hc, later, hlater, he⟩ =>
    ⟨hc, later ++ told, ?_, List.mem_append_left _ he⟩
  rw [hlater, htold, List.append_assoc]

/-- A report is a matter of outcomes and notes. -/
theorem of_eq (h : t.Reports caught e r) (hnotes : t.notes = s.notes) (houtcome : r'.1 = r.1)
    (hr : r'.2.notes = r.2.notes) : s.Reports caught e r' := by
  unfold Reports at h ⊢
  rwa [houtcome, hr, ← hnotes]

/-- An error that is reported before other operations are run is reported after them. -/
theorem cons {call : View → Value → Run} (h : ∀ view v, (call view v).Oblivious)
    {view : View} {op : Op} (ops : List Op)
    (hr : s.Reports caught e (Op.run call view op s)) :
    s.Reports caught e (Op.runAll call view (op :: ops) s) := by
  rw [Op.runAll]
  rcases hrun : Op.run call view op s with ⟨_ | e' | _, t⟩ <;> rw [hrun] at hr
  · obtain hfailed | ⟨hc, told, htold, he⟩ := hr
    · cases hfailed
    · obtain ⟨later, hlater⟩ := (Op.oblivious_runAll h view ops).exists_notes t
      refine .inr ⟨hc, later ++ told, ?_, List.mem_append_right _ he⟩
      rw [List.append_assoc, ← htold]
      exact hlater
  · exact hr
  · exact hr

end Reports

end State

namespace Op

variable {table : Table EncodeFn} {settings : Settings} {caught : Bool} {limit limit' : Nat}
variable {view view' : View} {ops : List Op} {op : Op} {s u : State}

/-- With sharing off a container that is not empty is entered unless it is open. -/
theorem run_container_of_unshared {call : View → Value → Run} (hoff : u.sharing = false)
    {length : Nat} (h0 : length ≠ 0) (owner : Owner) (major : Major) (body : List Op) :
    run call view (.container owner major length body) u =
      if (owner.ident u).1 ∈ u.opened then (.failed .cyclicStructure, (owner.ident u).2)
      else Run.enclosed (Head.ofLength major length) (owner.ident u).1 (runAll call view body)
        (owner.ident u).2 := by
  rw [run_container h0]
  cases owner with
  | existing id => exact Run.admitted_of_unshared hoff _ id _
  | fresh => exact Run.admitted_of_unshared (s := { u with next := u.next + 1 }) hoff _ _ _

/-- Inside a call and with sharing off, an operation changes nothing but the sink, the notes and the
numbers of new containers. -/
theorem eq_of_unshared (hd : s.depth ≠ 0) (hoff : s.sharing = false) {o : Outcome} {t : State}
    (hop : run (encodeValue table settings limit) view op s = (o, t)) :
    t = { s with sink := t.sink, next := t.next, notes := t.notes } := by
  have hmarkless := markless_run (markless_encodeValue table settings limit) view op
  have hkept : s.Kept (runAll (encodeValue table settings limit) view [op] s).2 :=
    State.frame_kept.runAll_encodeValue table settings limit [op] hd
  have hsound : s.Sound := fun hon => absurd hon (by rw [hoff]; exact Bool.false_ne_true)
  have hmarks := hmarkless.marks hd hoff
  rw [runAll_singleton, hop] at hkept
  rw [hop] at hmarks
  obtain ⟨sink, sharing, marks, opened, depth, next, notes⟩ := t
  obtain rfl : sharing = s.sharing := hkept.sharing
  obtain rfl : marks = s.marks := hmarks
  obtain rfl : opened = s.opened := hkept.opened hsound
  obtain rfl : depth = s.depth := hkept.depth
  rfl

/-- **Sharing is off wherever an operation is begun**, and nothing is marked there that was not
before. The proof follows the operations, one case for each way into them. -/
theorem Begins.unshared (h : Begins table settings caught limit view ops s limit' view' op u)
    (hd : s.depth ≠ 0) (hoff : s.sharing = false) : s.Unshared u := by
  induction h with
  | first => exact .of_eq hoff rfl le_rfl rfl
  | @later limit view op ops s t _ _ _ _ hop _ ih =>
    have heq := eq_of_unshared hd hoff hop
    have ht : s.Unshared t := .of_eq ((congrArg (·.sharing) heq).trans hoff)
      (congrArg (·.marks) heq) (congrArg (·.depth) heq).ge (congrArg (·.opened) heq)
    exact ht.trans (ih (ht.depth_ne_zero hd) ht.sharing)
  | @called limit view d ops s v cells key f _ _ _ _ _ _ _ ih =>
    have hbegin : ({ s with next := s.next + cells.size } : State).beginDocument =
      { s with next := s.next + cells.size } := if_neg hd
    rw [hbegin] at ih
    have hcall : s.Unshared (({ s with next := s.next + cells.size } : State).descend
      ((view.extend s.next cells).typeKey v) key) := .of_eq hoff rfl (Nat.le_succ _) rfl
    exact hcall.trans (ih (Nat.succ_ne_zero _) hoff)
  | suspended _ ih =>
    have hbody := ih hd rfl
    exact ⟨hbody.sharing, hbody.marks, hbody.depth, hbody.opened⟩
  | attempted _ _ ih => exact ih hd hoff
  | @plain limit view owner major length body ops s t id w _ _ _ _ _ hid ha hhead _ ih =>
    have ht := State.Unshared.ident hoff hid
    have hw := ht.trans (.put ht.sharing hhead)
    have hopen : id ∉ w.opened := by
      have hw' := State.opened_put (.wrote (Head.ofLength major length)) t
      rw [hhead] at hw'
      rw [hw']
      exact (State.admission_eq_plain_iff.mp ha).2
    have hin := hw.trans (.enter hw.sharing hopen)
    exact hin.trans (ih (hin.depth_ne_zero hd) hin.sharing)
  | fresh _ hid ha =>
    have ht := State.Unshared.ident hoff hid
    have hon := (State.admission_eq_fresh_iff.mp ha).1
    rw [ht.sharing] at hon
    cases hon

/-- **An error is reported** of an operation that was begun. -/
theorem Begins.reports (h : Begins table settings caught limit view ops s limit' view' op u)
    {e : EncodeError} (he : (run (encodeValue table settings limit') view' op u).1 = .failed e) :
    s.Reports caught e (runAll (encodeValue table settings limit) view ops s) := by
  have hcall : ∀ limit view v, Run.Oblivious (encodeValue table settings limit view v) :=
    oblivious_encodeValue table settings
  induction h with
  | first => exact State.Reports.cons (hcall _) _ (.inl he)
  | @later limit view op ops s t _ _ _ _ hop _ ih =>
    obtain ⟨told, htold⟩ := (oblivious_run (hcall limit) view op).exists_notes s
    rw [hop] at htold
    rw [runAll, hop]
    exact (ih he).earlier htold
  | @called limit view d ops s v cells key f _ _ _ _ hd hfound _ ih =>
    refine State.Reports.cons (hcall _) _ ?_
    simp only [run, hd]
    rw [encodeValue_of_some hfound]
    exact (ih he).of_eq (State.notes_beginDocument _) rfl rfl
  | @suspended limit view body ops s _ _ _ _ _ ih =>
    refine State.Reports.cons (hcall _) _ ?_
    rw [run]
    exact ih he
  | @attempted limit view body ops s _ _ _ _ hc _ ih =>
    refine State.Reports.cons (hcall _) _ ?_
    obtain ⟨told, htold⟩ := (oblivious_runAll (hcall limit) view body).exists_notes s
    have hbody := ih he
    rw [run]
    rcases hrun : runAll (encodeValue table settings limit) view body s with ⟨_ | e' | _, t⟩ <;>
      rw [hrun] at hbody htold
    · obtain hfailed | ⟨_, told', htold', hmem⟩ := hbody
      · cases hfailed
      · exact .inr ⟨hc, .succeeded :: told', congrArg (_ :: ·) htold', List.mem_cons_of_mem _ hmem⟩
    · obtain hfailed | ⟨_, told', htold', hmem⟩ := hbody
      · cases hfailed
        exact .inr ⟨hc, .failed e :: told, congrArg (_ :: ·) htold, List.mem_cons_self⟩
      · exact .inr ⟨hc, .failed e' :: told', congrArg (_ :: ·) htold', List.mem_cons_of_mem _ hmem⟩
    · exact hbody
  | @plain limit view owner major length body ops s t id w _ _ _ _ h0 hid ha hhead _ ih =>
    refine State.Reports.cons (hcall _) _ ?_
    have hnotes : w.notes = s.notes := (State.notes_put hhead).trans (State.notes_ident hid)
    rw [run_container h0, hid, Run.admitted, ha]
    simp only [Run.enclosed_of_put hhead]
    exact (ih he).of_eq hnotes rfl rfl
  | @fresh limit view owner major length body ops s t id m w _ _ _ _ h0 hid ha hmark hhead _ ih =>
    refine State.Reports.cons (hcall _) _ ?_
    have hmarked : m.notes = t.notes := State.notes_put (s := t.mark id) hmark
    have hnotes : w.notes = s.notes :=
      ((State.notes_put hhead).trans hmarked).trans (State.notes_ident hid)
    rw [run_container h0, hid, Run.admitted, ha]
    simp only [Run.andThen, hmark, Run.enclosed_of_put hhead]
    exact (ih he).of_eq hnotes rfl rfl

/-! ### The payload of a tag -/

variable {number : UInt64} {d : Draft} {t : State}

/-- After the tag the payload is run with sharing off. -/
theorem semantic_of_put {call : View → Value → Run}
    (h : State.put (.wrote (Head.bytes .tag number)) s = (.done, t)) (d : Draft) :
    runAll call view (semantic number d true) s =
      ((run call view (.encode d) (t.withSharing false)).1,
        (run call view (.encode d) (t.withSharing false)).2.withSharing t.sharing) := by
  rw [semantic, runAll, head, run, h]
  simp only [if_true, runAll_singleton, run]
  rfl

/-- If the tag is refused, nothing follows it. -/
theorem semantic_of_refused {call : View → Value → Run} {o : Outcome}
    (h : State.put (.wrote (Head.bytes .tag number)) s = (o, t)) (ho : o ≠ .done) (d : Draft) :
    runAll call view (semantic number d true) s = (o, t) := by
  rw [semantic, runAll, head, run, h]
  cases o with
  | done => exact absurd rfl ho
  | failed e => rfl
  | exhausted => rfl

/-- What is written with sharing suspended is what is written with sharing off and nothing
marked. -/
theorem run_unshared (table : Table EncodeFn) (settings : Settings) (limit : Nat) (view : View)
    (op : Op) (hd : t.depth ≠ 0) :
    Run.unshared (run (encodeValue table settings limit) view op) t =
      ((run (encodeValue table settings limit) view op (t.withSharing false)).1,
        (run (encodeValue table settings limit) view op (t.withSharing false)).2.withSharing
          t.sharing) := by
  have hmarkless := markless_run (markless_encodeValue table settings limit) view op
  obtain ⟨_, _, hsame⟩ := hmarkless (t.withSharing false) hd rfl
  have hmarks : _ = t.marks := hmarkless.marks (s := t.withSharing false) hd rfl
  rw [Run.unshared, hsame, ← hmarks]
  rfl

/-- Writes change the sink only. -/
theorem exists_sink_of_writes (call : View → Value → Run) (view : View) (bss : List Bytes)
    (s : State) : ∃ sink, (runAll call view (bss.map write) s).2 = { s with sink } := by
  induction bss generalizing s with
  | nil => exact ⟨s.sink, rfl⟩
  | cons bs bss ih =>
    rw [List.map_cons, runAll, run]
    rcases hput : State.put (.wrote bs) s with ⟨o, t⟩
    obtain rfl : { s with sink := (s.sink.put (.wrote bs)).2 } = t := by rw [← State.put_snd, hput]
    cases o with
    | done =>
      obtain ⟨sink, hsink⟩ := ih { s with sink := (s.sink.put (.wrote bs)).2 }
      exact ⟨sink, hsink⟩
    | failed e => exact ⟨_, rfl⟩
    | exhausted => exact ⟨_, rfl⟩

section

variable (table : Table EncodeFn) (settings : Settings) (limit : Nat) (view : View)
variable (number : UInt64) (d : Draft)

/-- **The payload is written as with sharing off and nothing marked**, after the tag. -/
theorem semantic_eq_unshared (hd : s.depth ≠ 0) :
    runAll (encodeValue table settings limit) view (semantic number d true) s =
      (State.put (.wrote (Head.bytes .tag number))).andThen
        (Run.unshared (run (encodeValue table settings limit) view (.encode d))) s := by
  obtain ⟨o, sink, hput⟩ := State.exists_put (.wrote (Head.bytes .tag number)) s
  rw [Run.andThen, hput]
  cases o with
  | done =>
    rw [semantic_of_put hput]
    exact (run_unshared table settings limit view _ (t := { s with sink }) hd).symm
  | failed e => exact semantic_of_refused hput Outcome.noConfusion d
  | exhausted => exact semantic_of_refused hput Outcome.noConfusion d

/-- Sharing, marks, open containers and depth are put back. -/
theorem semantic_restores (hd : s.depth ≠ 0) {r : Outcome × State}
    (hr : runAll (encodeValue table settings limit) view (semantic number d true) s = r) :
    r.2 = { s with sink := r.2.sink, next := r.2.next, notes := r.2.notes } := by
  obtain ⟨o, sink, hput⟩ := State.exists_put (.wrote (Head.bytes .tag number)) s
  by_cases ho : o = .done
  · subst ho
    have hd' : (State.withSharing { s with sink } false).depth ≠ 0 := hd
    rw [semantic_of_put hput] at hr
    rcases hrun : run (encodeValue table settings limit) view (.encode d)
      (State.withSharing { s with sink } false) with ⟨o, u⟩
    have hu := eq_of_unshared hd' rfl hrun
    rw [hrun] at hr
    rw [← hr, hu]
    rfl
  · rw [semantic_of_refused hput ho] at hr
    rw [← hr]

/-- No container is marked and none is referred to. -/
theorem semantic_quiet (hd : s.depth ≠ 0) :
    s.Quiet (runAll (encodeValue table settings limit) view (semantic number d true) s).2 := by
  have htag := State.Quiet.wrote (Head.bytes .tag number) s
  obtain ⟨o, sink, hput⟩ := State.exists_put (.wrote (Head.bytes .tag number)) s
  rw [hput] at htag
  by_cases ho : o = .done
  · subst ho
    have hbody : (State.withSharing { s with sink } false).Unmarked
        (runAll (encodeValue table settings limit) view [.encode d]
          (State.withSharing { s with sink } false)).2 :=
      State.frame_unmarked.runAll_encodeValue table settings limit _ hd
    rw [runAll_singleton] at hbody
    rw [semantic_of_put hput]
    exact htag.trans (hbody.quiet rfl)
  · rw [semantic_of_refused hput ho]
    exact htag

/-- Wherever an operation of the payload is begun sharing is off, and the errors of the payload are
reported. -/
theorem semantic_begins (hd : s.depth ≠ 0)
    (hput : State.put (.wrote (Head.bytes .tag number)) s = (.done, t))
    (h : Begins table settings caught limit view [.encode d] (t.withSharing false) limit' view' op u) :
    s.Unshared u ∧
      ∀ e, (run (encodeValue table settings limit') view' op u).1 = .failed e →
        s.Reports caught e
          (runAll (encodeValue table settings limit) view (semantic number d true) s) := by
  obtain ⟨_, sink, hput'⟩ := State.exists_put (.wrote (Head.bytes .tag number)) s
  cases hput'.symm.trans hput
  have hpayload : s.Unshared (State.withSharing { s with sink } false) := .of_eq rfl rfl le_rfl rfl
  refine ⟨hpayload.trans (h.unshared hd rfl), fun e he => ?_⟩
  have hreports := h.reports he
  rw [runAll_singleton] at hreports
  rw [semantic_of_put hput]
  exact hreports.of_eq rfl rfl rfl

/-- After the payload the state is that after a scalar, but for what was written and noted, for the
room that is left and for the numbers of new containers. -/
theorem semantic_forget (hd : s.depth ≠ 0) {r : Outcome × State}
    (hr : runAll (encodeValue table settings limit) view (semantic number d true) s = r)
    (bss : List Bytes) {scalar : State}
    (hscalar : (runAll (encodeValue table settings limit) view
      (head .tag number :: bss.map write) s).2 = scalar) :
    r.2.forget = State.forget { scalar with
      sink := { r.2.sink with journal := scalar.sink.journal }, next := r.2.next } := by
  obtain ⟨sink, hsink⟩ := exists_sink_of_writes (encodeValue table settings limit) view
    (Head.bytes .tag number :: bss) s
  obtain rfl : { s with sink } = scalar := hsink.symm.trans hscalar
  rw [semantic_restores table settings limit view number d hd hr]
  rfl

end

/-- **Suspended sharing leaves no trace.** Let a value be encoded under a tag with sharing suspended,
inside a call, with any functions of the caller's and any sink. Then, whether this ends in an error
or not:

* after the tag the same is done as with sharing off and nothing marked, with the same containers
  open;
* sharing, the marks, the open containers and the depth are afterwards as they were;
* nothing is marked and no reference is written;
* wherever an operation of the payload is begun sharing is off, also inside what is suspended again,
  so a container that is not empty fails if it is open and is else entered, marked or not, and
  an error ends the payload unless an attempt has caught and noted it;
* what follows goes as it would after a scalar, that is a tag and some writes: it ends in the same way,
  in the same events and with the same marks. -/
theorem semantic_suspended (table : Table EncodeFn) (settings : Settings) (limit : Nat) (view : View)
    (number : UInt64) (d : Draft) (s : State) (hd : s.depth ≠ 0) {r : Outcome × State}
    (hr : runAll (encodeValue table settings limit) view (semantic number d true) s = r) :
    r = (State.put (.wrote (Head.bytes .tag number))).andThen
        (Run.unshared (run (encodeValue table settings limit) view (.encode d))) s ∧
      r.2 = { s with sink := r.2.sink, next := r.2.next, notes := r.2.notes } ∧
      s.Quiet r.2 ∧
      (∀ t, State.put (.wrote (Head.bytes .tag number)) s = (.done, t) →
        ∀ caught limit' view' op u,
          Begins table settings caught limit view [.encode d] (t.withSharing false) limit' view' op u →
            let call := encodeValue table settings limit'
            s.Unshared u ∧ (∀ e, (run call view' op u).1 = .failed e → s.Reports caught e r) ∧
              ∀ owner major length body, op = .container owner major length body → length ≠ 0 →
                run call view' op u =
                  if (owner.ident u).1 ∈ u.opened then (.failed .cyclicStructure, (owner.ident u).2)
                  else Run.enclosed (Head.ofLength major length) (owner.ident u).1
                    (runAll call view' body) (owner.ident u).2) ∧
      ∀ (bss : List Bytes) (limit' : Nat) (view' : View) (rest : List Op),
        let scalar := (runAll (encodeValue table settings limit) view
          (head .tag number :: bss.map write) s).2
        let u := { scalar with
          sink := { r.2.sink with journal := scalar.sink.journal }, next := r.2.next }
        let q := runAll (encodeValue table settings limit') view' rest r.2
        let q' := runAll (encodeValue table settings limit') view' rest u
        q.1 = q'.1 ∧ q.2.forget = q'.2.forget ∧
          ∃ later, q.2.sink.journal = later ++ r.2.sink.journal ∧
            q'.2.sink.journal = later ++ scalar.sink.journal := by
  subst hr
  refine ⟨semantic_eq_unshared table settings limit view number d hd,
    semantic_restores table settings limit view number d hd rfl,
    semantic_quiet table settings limit view number d hd, ?_, ?_⟩
  · intro t hput caught limit' view' op u hbegins call
    obtain ⟨hu, hreports⟩ := semantic_begins table settings limit view number d hd hput hbegins
    refine ⟨hu, hreports, ?_⟩
    rintro owner major length body rfl h0
    exact run_container_of_unshared hu.sharing h0 owner major body
  · intro bss limit' view' rest scalar u q q'
    have hcall : ∀ view v, Run.Oblivious (encodeValue table settings limit' view v) :=
      oblivious_encodeValue table settings limit'
    exact (oblivious_runAll hcall view' rest).of_forget
      (semantic_forget table settings limit view number d hd rfl bss rfl)

/-- Inside a container that is open a value of the caller's is encoded under a tag. Its function suspends
sharing again and attempts to encode the open container. The marked container is written in full,
the attempt fails, and sharing is found off. -/
theorem semantic_suspended_nested :
    let f : EncodeFn := fun _ _ _ =>
      [.suspended [.value (.container (.stored 1))], .observe,
        .attempt [.value (.container (.stored 0))], .observe]
    let o : Options := { overrides := [(.custom "S", f)] }
    let g : Graph := ⟨#[.array [.container (.stored 1), .container (.stored 2)], .array [.integer 1],
      .custom ⟨"S", [], none, none⟩]⟩
    let s : State :=
      { State.initial .unlimited true 0 with
        marks := [(.stored 1, 1), (.stored 0, 0)], opened := [.stored 0], depth := 1 }
    let r := runAll (encodeValue o.table {} 5) g.view
      (semantic 40 (.array [.known (.container (.stored 2)), .known (.container (.stored 1))]) true) s
    s.depth ≠ 0 ∧ r.1 = .done ∧ r.2.sink.bytes = [0xD8, 40, 0x82, 0x81, 1, 0x81, 1] ∧
      r.2.notes = [.sharing false, .failed .cyclicStructure, .sharing false] ∧
      r.2 = { s with sink := r.2.sink, next := r.2.next, notes := r.2.notes } ∧ s.Quiet r.2 := by
  intro f o g s r
  have hdone : r.1 = .done := by decide +kernel
  have hbytes : r.2.sink.bytes = [0xD8, 40, 0x82, 0x81, 1, 0x81, 1] := by decide +kernel
  have hnotes : r.2.notes = [.sharing false, .failed .cyclicStructure, .sharing false] := by
    decide +kernel
  obtain ⟨r', hr⟩ : ∃ r', r = r' := ⟨_, rfl⟩
  obtain ⟨_, hrestored, hquiet, _⟩ := semantic_suspended o.table {} 5 g.view 40
    (.array [.known (.container (.stored 2)), .known (.container (.stored 1))]) s Nat.one_ne_zero hr
  rw [hr] at hdone hbytes hnotes ⊢
  exact ⟨Nat.one_ne_zero, hdone, hbytes, hnotes, hrestored, hquiet⟩

end Op

end CborGraph
