import CborGraph.Proofs.Run

/-!
# What operations keep

An operation writes, takes notes, calls for values, suspends sharing, or encloses a body in a
container. A relation between the state before a run and the state after it is a `Frame` if
each of these parts keeps it, whatever the sink does. Then every operation keeps it that is
built from them, `Frame.run`, and every call for a value, whatever the caller's own encoder
functions do, `Frame.encodeValue`.

A call that is not inside another begins a document, and that may be done only if no container
is open; see `State.Settled`. `asserting` is a call that insists on it.
-/

namespace CborGraph

/-! ### Containers -/

/-- What holds of the state after the first run and of the state after both holds at the end. -/
theorem Run.andThen_snd {P : State → Prop} {r k : Run} {s : State} (hr : P (r s).2)
    (hk : P (k (r s).2).2) : P (r.andThen k s).2 := by
  unfold andThen
  rcases h : r s with ⟨_ | e | _, t⟩ <;> rw [h] at hr hk
  · exact hk
  · exact hr
  · exact hr

/-- The run of a container that is entered: its head, and `body` with the container open. -/
def Run.enclosed (head : Bytes) (id : Ident) (body : Run) : Run :=
  (State.put (.wrote head)).andThen fun s => ((body (s.enter id)).1, (body (s.enter id)).2.leave id)

/-- The run of a container that is not empty, by what it is to be treated as. -/
def Run.admitted (head : Bytes) (id : Ident) (body : Run) : Run := fun s =>
  match s.admission id with
  | .marked index => State.put (.referred id index) s
  | .cyclic => (.failed .cyclicStructure, s)
  | .fresh => (State.put (.marked id)).andThen (enclosed head id body) (s.mark id)
  | .plain => enclosed head id body s

section

variable {call : View → Value → Run} {view : View}

theorem Op.run_container {length : Nat} (h : length ≠ 0) (owner : Owner) (major : Major)
    (body : List Op) (s : State) :
    Op.run call view (.container owner major length body) s =
      Run.admitted (Head.ofLength major length) (owner.ident s).1 (Op.runAll call view body)
        (owner.ident s).2 := by
  rw [Op.run, if_neg h]
  rfl

/-- A value is called for with the containers of its draft in view. -/
theorem Op.run_encode (call : View → Value → Run) (view : View) (d : Draft) (s : State) :
    ∃ seen v n, Op.run call view (.encode d) s = call seen v { s with next := s.next + n } := by
  rw [Op.run]
  exact ⟨_, _, _, rfl⟩

end

namespace State

section Put

variable (e : Event) (s : State)

/-- A write changes the sink only. -/
theorem put_snd : (put e s).2 = { s with sink := (s.sink.put e).2 } := by
  unfold put
  rcases s.sink.put e with ⟨_ | err, k⟩ <;> rfl

@[simp] theorem sharing_put : (put e s).2.sharing = s.sharing := by rw [put_snd]

@[simp] theorem marks_put : (put e s).2.marks = s.marks := by rw [put_snd]

@[simp] theorem opened_put : (put e s).2.opened = s.opened := by rw [put_snd]

@[simp] theorem depth_put : (put e s).2.depth = s.depth := by rw [put_snd]

end Put

/-- When a document begins, nothing is written. -/
@[simp] theorem sink_beginDocument (s : State) : s.beginDocument.sink = s.sink := by
  unfold beginDocument
  split <;> rfl

@[simp] theorem opened_beginDocument (s : State) : s.beginDocument.opened = s.opened := by
  unfold beginDocument
  split <;> rfl

theorem admission_eq_fresh_iff {s : State} {id : Ident} :
    s.admission id = .fresh ↔ s.sharing = true ∧ s.marks.lookup id = none := by
  unfold admission
  cases s.sharing with
  | false => by_cases h : id ∈ s.opened <;> simp [h]
  | true => cases s.marks.lookup id <;> simp

theorem admission_eq_marked_iff {s : State} {id : Ident} {index : Nat} :
    s.admission id = .marked index ↔ s.sharing = true ∧ s.marks.lookup id = some index := by
  unfold admission
  cases s.sharing with
  | false => by_cases h : id ∈ s.opened <;> simp [h]
  | true => cases s.marks.lookup id <;> simp

theorem admission_eq_plain_iff {s : State} {id : Ident} :
    s.admission id = .plain ↔ s.sharing = false ∧ id ∉ s.opened := by
  unfold admission
  cases s.sharing with
  | false => by_cases h : id ∈ s.opened <;> simp [h]
  | true => cases s.marks.lookup id <;> simp

end State

/-! ### Calls -/

section

variable {table : Table EncodeFn} {settings : Settings} {view : View} {v : Value}

/-- A value with an entry is encoded by its function, one call deeper. -/
theorem encodeValue_of_some {key : TypeKey} {f : EncodeFn} (h : table.resolve view v = some (key, f))
    (limit : Nat) (s : State) :
    encodeValue table settings (limit + 1) view v s =
      let r := Op.runAll (encodeValue table settings limit) view (f settings view v)
        (s.beginDocument.descend (view.typeKey v) key)
      (r.1, r.2.ascend) := by
  rw [encodeValue, h]
  rfl

/-- A value with no entry is refused. -/
theorem encodeValue_of_resolve_none (h : table.resolve view v = none) (limit : Nat) (s : State) :
    encodeValue table settings (limit + 1) view v s =
      (.failed (.unsupportedType (view.typeName v)),
        s.beginDocument.record (.dispatched (view.typeKey v) none)) := by
  rw [encodeValue, h]

end

namespace State

/-- A call may be made: if it begins a document, no container is open. -/
def Settled (s : State) : Prop := s.depth = 0 → s.opened = []

end State

/-! ### Frames -/

/-- A relation between the states before and after a run that the parts of a run keep. -/
structure Frame (R : State → State → Prop) : Prop where
  refl : ∀ s, R s s
  trans : ∀ {s t u}, R s t → R t u → R s u
  depth : ∀ {s t}, R s t → t.depth = s.depth
  wrote : ∀ s bs, R s (State.put (.wrote bs) s).2
  note : ∀ s n, R s (s.note n)
  number : ∀ s n, R s { s with next := s.next + n }
  suspended : ∀ {s t}, R { s with sharing := false } t → R s { t with sharing := s.sharing }
  referred : ∀ {s id index}, s.admission id = .marked index → R s (State.put (.referred id index) s).2
  marked : ∀ {s id}, s.admission id = .fresh → R s (State.put (.marked id) (s.mark id)).2
  plain : ∀ {s id head t}, s.admission id = .plain → R ((State.put (.wrote head) s).2.enter id) t →
    R s (t.leave id)
  fresh : ∀ {s id head t}, s.admission id = .fresh →
    R ((State.put (.wrote head) (State.put (.marked id) (s.mark id)).2).2.enter id) t →
      R s (t.leave id)
  called : ∀ {s t key found}, s.Settled → R (s.beginDocument.descend key found) t → R s t.ascend
  refused : ∀ {s key}, s.Settled → R s (s.beginDocument.record (.dispatched key none))

namespace Frame

variable {R : State → State → Prop} {call : View → Value → Run} {view : View} {body : Run}

/-- A container keeps what its body keeps. -/
theorem admitted (hR : Frame R) {d : Nat} (hbody : ∀ s, s.depth = d → R s (body s).2) (head : Bytes)
    (id : Ident) {s : State} (hs : s.depth = d) : R s (Run.admitted head id body s).2 := by
  unfold Run.admitted
  cases ha : s.admission id with
  | marked index => exact hR.referred ha
  | cyclic => exact hR.refl s
  | plain =>
    have hwrote := hR.wrote s head
    exact Run.andThen_snd hwrote (hR.plain ha (hbody _ ((hR.depth hwrote).trans hs)))
  | fresh =>
    have hmarked := hR.marked ha
    have hwrote := hR.trans hmarked (hR.wrote _ head)
    exact Run.andThen_snd hmarked
      (Run.andThen_snd hwrote (hR.fresh ha (hbody _ ((hR.depth hwrote).trans hs))))

theorem ident (hR : Frame R) (owner : Owner) (s : State) : R s (owner.ident s).2 := by
  cases owner with
  | existing id => exact hR.refl s
  | fresh => exact hR.number s 1

mutual

/-- **An operation keeps what calls keep** that are made at its own depth. -/
theorem run (hR : Frame R) {d : Nat} (hcall : ∀ view v s, s.depth = d → R s (call view v s).2) :
    ∀ (op : Op) {s : State}, s.depth = d → R s (Op.run call view op s).2
  | .write bs, s, _ => hR.wrote s bs
  | .encode dr, s, hs => by
    obtain ⟨seen, v, n, h⟩ := Op.run_encode call view dr s
    rw [h]
    exact hR.trans (hR.number s n) (hcall seen v _ hs)
  | .suspended body, s, hs => by
    rw [Op.run]
    exact hR.suspended (runAll hR hcall body (s := { s with sharing := false }) hs)
  | .container owner major length body, s, hs => by
    by_cases h0 : length = 0
    · rw [Op.run, if_pos h0]
      exact hR.wrote s _
    · rw [Op.run_container h0]
      have howner := hR.ident owner s
      exact hR.trans howner (hR.admitted (fun t ht => runAll hR hcall body ht) _ _
        ((hR.depth howner).trans hs))
  | .attempt body, s, hs => by
    have hbody := runAll hR hcall body hs
    rw [Op.run]
    rcases hrun : Op.runAll call view body s with ⟨_ | e | _, t⟩ <;> rw [hrun] at hbody
    · exact hR.trans hbody (hR.note t _)
    · exact hR.trans hbody (hR.note t _)
    · exact hbody
  | .fail e, s, _ => hR.refl s
  | .observe, s, _ => hR.note s _

/-- Operations in order keep what each of them keeps. -/
theorem runAll (hR : Frame R) {d : Nat} (hcall : ∀ view v s, s.depth = d → R s (call view v s).2) :
    ∀ (ops : List Op) {s : State}, s.depth = d → R s (Op.runAll call view ops s).2
  | [], s, _ => hR.refl s
  | op :: ops, s, hs => by
    have hop := run hR hcall op hs
    rw [Op.runAll]
    rcases hrun : Op.run call view op s with ⟨_ | e | _, t⟩ <;> rw [hrun] at hop
    · exact hR.trans hop (runAll hR hcall ops ((hR.depth hop).trans hs))
    · exact hop
    · exact hop

end

/-- **A call keeps what its parts keep**, by any table. -/
theorem encodeValue (hR : Frame R) (table : Table EncodeFn) (settings : Settings) (limit : Nat) :
    ∀ (view : View) (v : Value) {s : State}, s.Settled →
      R s (encodeValue table settings limit view v s).2 := by
  induction limit with
  | zero => exact fun view v s _ => hR.refl s
  | succ limit ih =>
    intro view v s hs
    cases hfound : table.resolve view v with
    | none =>
      rw [encodeValue_of_resolve_none hfound]
      exact hR.refused hs
    | some entry =>
      obtain ⟨key, f⟩ := entry
      rw [encodeValue_of_some hfound]
      refine hR.called hs (hR.runAll ?_ _ rfl)
      -- Inside a call every call may be made.
      intro view v t ht
      exact ih view v fun h0 => absurd (ht.symm.trans h0) (Nat.succ_ne_zero _)

/-- Operations inside a call keep what is kept. -/
theorem runAll_encodeValue (hR : Frame R) (table : Table EncodeFn) (settings : Settings) (limit : Nat)
    (ops : List Op) {s : State} (hs : s.depth ≠ 0) :
    R s (Op.runAll (CborGraph.encodeValue table settings limit) view ops s).2 :=
  hR.runAll (fun view v _ ht => hR.encodeValue table settings limit view v
    fun h0 => absurd (ht.symm.trans h0) hs) ops rfl

end Frame

/-! ### The assertion -/

/-- The call, made only if no document begins while a container is open. A run that would
begin one goes no further, as at the limit of nesting. -/
def asserting (call : View → Value → Run) : View → Value → Run := fun view v s =>
  if s.depth = 0 ∧ s.opened ≠ [] then (.exhausted, s) else call view v s

/-- With the assertion, operations keep what is kept at any depth. -/
theorem Frame.runAll_asserting {R : State → State → Prop} (hR : Frame R) (table : Table EncodeFn)
    (settings : Settings) (limit : Nat) (view : View) (ops : List Op) (s : State) :
    R s (Op.runAll (asserting (CborGraph.encodeValue table settings limit)) view ops s).2 := by
  refine hR.runAll (fun view v t _ => ?_) ops rfl
  unfold asserting
  split
  · exact hR.refl t
  · next h => exact hR.encodeValue table settings limit view v fun h0 =>
      not_not.mp fun hne => h ⟨h0, hne⟩

end CborGraph
