import CborGraph.Proofs.Frame
import CborGraph.Proofs.Walk

/-!
# Marks that are not looked at

Inside a call and with sharing off a run does not look at the marks and leaves them as they are:
`Run.Markless`. It stays in the call, and leaves sharing off for what follows, so this is a matter of
each operation for itself, by induction on operations and calls.

Main statement: `markless_encodeValue`, with any table.
-/

namespace CborGraph

/-- The state with these marks instead of its own. -/
def State.withMarks (s : State) (marks : Marks) : State := { s with marks }

/-- The state with sharing on or off. -/
def State.withSharing (s : State) (on : Bool) : State := { s with sharing := on }

/-- Inside a call and with sharing off, the run puts back the depth, leaves sharing off, and does the
same whatever is marked. -/
def Run.Markless (r : Run) : Prop :=
  ∀ s : State, s.depth ≠ 0 → s.sharing = false →
    (r s).2.depth = s.depth ∧ (r s).2.sharing = false ∧
      ∀ marks, r (s.withMarks marks) = ((r s).1, (r s).2.withMarks marks)

/-- With sharing off a container is entered unless it is open, marked or not. -/
theorem Run.admitted_of_unshared {s : State} (hoff : s.sharing = false) (head : Bytes) (id : Ident)
    (r : Run) : Run.admitted head id r s =
      if id ∈ s.opened then (.failed .cyclicStructure, s) else Run.enclosed head id r s := by
  rw [Run.admitted, State.admission, hoff]
  by_cases hid : id ∈ s.opened <;> simp [hid]

namespace Run.Markless

variable {r k : Run}

/-- The marks are left as they are. -/
theorem marks (h : r.Markless) {s : State} (hd : s.depth ≠ 0) (hoff : s.sharing = false) :
    (r s).2.marks = s.marks :=
  congrArg (·.2.marks) ((h s hd hoff).2.2 s.marks)

theorem put (e : Event) : Run.Markless (State.put e) := by
  intro s _ hoff
  refine ⟨State.depth_put e s, (State.sharing_put e s).trans hoff, fun marks => ?_⟩
  have hsink : (s.withMarks marks).sink = s.sink := rfl
  unfold State.put
  rw [hsink]
  rcases s.sink.put e with ⟨_ | err, sink⟩ <;> rfl

theorem andThen (hr : r.Markless) (hk : k.Markless) : (r.andThen k).Markless := by
  intro s hd hoff
  obtain ⟨hdepth, hsharing, hsame⟩ := hr s hd hoff
  unfold Run.andThen
  rcases hrun : r s with ⟨_ | e | _, t⟩ <;> rw [hrun] at hdepth hsharing hsame
  · obtain ⟨hdepth', hsharing', hsame'⟩ := hk t (by rwa [hdepth]) hsharing
    refine ⟨hdepth'.trans hdepth, hsharing', fun marks => ?_⟩
    rw [hsame]
    exact hsame' marks
  · refine ⟨hdepth, hsharing, fun marks => ?_⟩
    rw [hsame]
  · refine ⟨hdepth, hsharing, fun marks => ?_⟩
    rw [hsame]

theorem enclosed (h : r.Markless) (head : Bytes) (id : Ident) :
    (Run.enclosed head id r).Markless := by
  refine (put _).andThen fun s hd hoff => ?_
  obtain ⟨hdepth, hsharing, hsame⟩ := h (s.enter id) hd hoff
  refine ⟨hdepth, hsharing, fun marks => ?_⟩
  have henter : (s.withMarks marks).enter id = (s.enter id).withMarks marks := rfl
  rw [henter, hsame]
  rfl

theorem admitted (h : r.Markless) (head : Bytes) (id : Ident) :
    (Run.admitted head id r).Markless := by
  intro s hd hoff
  have hsplit := fun marks => admitted_of_unshared (s := s.withMarks marks) hoff head id r
  have hhere := admitted_of_unshared hoff head id r
  by_cases hid : id ∈ s.opened
  · rw [if_pos hid] at hhere
    rw [hhere]
    exact ⟨rfl, hoff, fun marks => (hsplit marks).trans (if_pos hid)⟩
  · rw [if_neg hid] at hhere
    obtain ⟨hdepth, hsharing, hsame⟩ := h.enclosed head id s hd hoff
    rw [hhere]
    exact ⟨hdepth, hsharing, fun marks => ((hsplit marks).trans (if_neg hid)).trans (hsame marks)⟩

end Run.Markless

namespace Op

variable {call : View → Value → Run}

mutual

/-- **An operation does not look at the marks** if the calls that it makes do not. -/
theorem markless_run (h : ∀ view v, (call view v).Markless) (view : View) :
    ∀ op : Op, Run.Markless (run call view op)
  | .write bs => .put _
  | .encode d => fun s hd hoff => by
    simp only [run]
    exact h _ _ { s with next := _ } hd hoff
  | .suspended body => fun s hd hoff => by
    obtain ⟨hdepth, hsharing, hsame⟩ := markless_runAll h view body (s.withSharing false) hd rfl
    simp only [run]
    refine ⟨hdepth, hoff, fun marks => ?_⟩
    have hsuspend : ({ s.withMarks marks with sharing := false } : State) =
      (s.withSharing false).withMarks marks := rfl
    rw [hsuspend, hsame]
    rfl
  | .container owner major length body => fun s hd hoff => by
    by_cases h0 : length = 0
    · simp only [run, if_pos h0]
      exact Run.Markless.put _ s hd hoff
    · simp only [run_container h0]
      cases owner with
      | existing id => exact (markless_runAll h view body).admitted _ id s hd hoff
      | fresh => exact (markless_runAll h view body).admitted _ _ { s with next := s.next + 1 } hd hoff
  | .attempt body => fun s hd hoff => by
    obtain ⟨hdepth, hsharing, hsame⟩ := markless_runAll h view body s hd hoff
    simp only [run]
    rcases hrun : runAll call view body s with ⟨_ | e | _, t⟩ <;> rw [hrun] at hdepth hsharing hsame
    · refine ⟨hdepth, hsharing, fun marks => ?_⟩
      rw [hsame]
      rfl
    · refine ⟨hdepth, hsharing, fun marks => ?_⟩
      rw [hsame]
      rfl
    · refine ⟨hdepth, hsharing, fun marks => ?_⟩
      rw [hsame]
  | .fail e => fun s _ hoff => ⟨rfl, hoff, fun _ => rfl⟩
  | .observe => fun s _ hoff => ⟨rfl, hoff, fun _ => rfl⟩

/-- Operations in order do not look at the marks. -/
theorem markless_runAll (h : ∀ view v, (call view v).Markless) (view : View) :
    ∀ ops : List Op, Run.Markless (runAll call view ops)
  | [] => fun _ _ hoff => ⟨rfl, hoff, fun _ => rfl⟩
  | op :: ops => (markless_run h view op).andThen (markless_runAll h view ops)

end

end Op

/-- **A call does not look at the marks**, with any table, if it is inside another and sharing is
off. -/
theorem markless_encodeValue (table : Table EncodeFn) (settings : Settings) (limit : Nat) :
    ∀ view v, Run.Markless (encodeValue table settings limit view v) := by
  induction limit with
  | zero => exact fun _ _ _ _ hoff => ⟨rfl, hoff, fun _ => rfl⟩
  | succ limit ih =>
    intro view v s hd hoff
    -- Only a call that begins a document forgets the marks.
    have hbegin : ∀ {t : State}, t.depth ≠ 0 → t.beginDocument = t := fun h => if_neg h
    have hd' : ∀ marks, (s.withMarks marks).depth ≠ 0 := fun _ => hd
    cases hfound : table.resolve view v with
    | none =>
      rw [encodeValue_of_resolve_none hfound, hbegin hd]
      refine ⟨rfl, hoff, fun marks => ?_⟩
      rw [encodeValue_of_resolve_none hfound, hbegin (hd' marks)]
      rfl
    | some entry =>
      obtain ⟨key, f⟩ := entry
      obtain ⟨hdepth, hsharing, hsame⟩ := Op.markless_runAll ih view (f settings view v)
        (s.descend (view.typeKey v) key) (Nat.succ_ne_zero _) hoff
      rw [encodeValue_of_some hfound, hbegin hd]
      refine ⟨congrArg (· - 1) hdepth, hsharing, fun marks => ?_⟩
      have hdescend : (s.withMarks marks).descend (view.typeKey v) key =
        (s.descend (view.typeKey v) key).withMarks marks := rfl
      rw [encodeValue_of_some hfound, hbegin (hd' marks), hdescend, hsame]
      rfl

end CborGraph
