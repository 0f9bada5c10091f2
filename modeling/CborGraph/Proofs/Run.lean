import CborGraph.Proofs.BuiltinTable
import CborGraph.Proofs.Reading

/-!
# Runs that write

With a sink that has no limit every write succeeds. `State.Wrote` says what a run has done
that came to its end: it has written bytes, it has marked containers, and it has put all
else back. `Writes` is a run that marks nothing from any state that is `Ready`.

A container is encoded in one of four ways: it is entered, referred to, written as a head, or
refused. There is one statement for each, from `encodeValue_enter` on.
-/

namespace CborGraph

/-! ### States -/

namespace State

@[simp] theorem bytes_record (s : State) (e : Event) :
    (s.record e).sink.bytes = s.sink.bytes ++ e.bytes := by
  simp [record, Sink.bytes]

/-- A sink with no limit records every event. -/
theorem put_eq {s : State} (h : s.sink.room = none) (e : Event) :
    put e s = (.done, s.record e) := by
  simp [put, Sink.put, h, record]

/-- From `s` to `t` bytes were written and containers marked, and all else was put back. -/
structure Wrote (bs : Bytes) (marks : List (Ident × Nat)) (s t : State) : Prop where
  bytes : t.sink.bytes = s.sink.bytes ++ bs
  room : t.sink.room = none
  marks : t.marks = marks
  sharing : t.sharing = s.sharing
  opened : t.opened = s.opened
  depth : t.depth = s.depth
  next : s.next ≤ t.next

theorem Wrote.refl {s : State} (h : s.sink.room = none) : Wrote [] s.marks s s :=
  ⟨(List.append_nil _).symm, h, rfl, rfl, rfl, rfl, le_rfl⟩

theorem Wrote.trans {bs cs : Bytes} {m m' : List (Ident × Nat)} {s t u : State} (h : Wrote bs m s t)
    (h' : Wrote cs m' t u) : Wrote (bs ++ cs) m' s u where
  bytes := by rw [h'.bytes, h.bytes, List.append_assoc]
  room := h'.room
  marks := h'.marks
  sharing := h'.sharing.trans h.sharing
  opened := h'.opened.trans h.opened
  depth := h'.depth.trans h.depth
  next := le_trans h.next h'.next

theorem Wrote.record {s : State} (h : s.sink.room = none) (e : Event) :
    Wrote e.bytes s.marks s (s.record e) :=
  ⟨bytes_record s e, h, rfl, rfl, rfl, rfl, le_rfl⟩

/-- The sink has no limit, nothing is marked before a document begins, and containers to
come are not among those that are open. -/
structure Ready (s : State) : Prop where
  room : s.sink.room = none
  fresh : s.depth = 0 → s.marks = []
  unopened : ∀ n, .temporary n ∈ s.opened → n < s.next

theorem Ready.beginDocument {s : State} (h : s.Ready) : s.beginDocument = s := by
  rw [State.beginDocument]
  split
  · next h0 => rw [← h.fresh h0]
  · rfl

/-- A run that marks nothing leaves the state ready. -/
theorem Ready.of_wrote {bs : Bytes} {s t : State} (h : s.Ready) (hw : Wrote bs s.marks s t) :
    t.Ready where
  room := hw.room
  fresh h0 := by
    rw [hw.marks]
    exact h.fresh (hw.depth ▸ h0)
  unopened n hn := lt_of_lt_of_le (h.unopened n (hw.opened ▸ hn)) hw.next

/-- The state inside a call for a value. -/
def descend (s : State) (key found : TypeKey) : State :=
  { s.record (.dispatched key (some found)) with depth := s.depth + 1 }

/-- The state after a call. -/
def ascend (s : State) : State := { s with depth := s.depth - 1 }

theorem Ready.descend {s : State} (h : s.Ready) (key found : TypeKey) : (s.descend key found).Ready :=
  ⟨h.room, fun h0 => absurd h0 (Nat.succ_ne_zero _), h.unopened⟩

@[simp] theorem bytes_descend (s : State) (key found : TypeKey) :
    (s.descend key found).sink.bytes = s.sink.bytes :=
  (bytes_record s _).trans (List.append_nil _)

/-- What is done inside a call is done by the call. -/
theorem Wrote.ascend {bs : Bytes} {marks : List (Ident × Nat)} {s t : State} {key found : TypeKey}
    (h : Wrote bs marks (s.descend key found) t) : Wrote bs marks s t.ascend where
  bytes := by rw [← bytes_descend s key found]; exact h.bytes
  room := h.room
  marks := h.marks
  sharing := h.sharing
  opened := h.opened
  depth := by rw [State.ascend, h.depth]; rfl
  next := h.next

end State

/-! ### Calls -/

variable {settings : Settings} {view : View} {limit : Nat}

/-- A value that the table knows is encoded by its function, one call deeper. -/
theorem encodeValue_of_builtin {v : Value} {key : TypeKey} {b : Builtin}
    (h : view.builtin? v = some (key, b)) {s : State} (hs : s.Ready) :
    encodeValue builtinTable settings (limit + 1) view v s =
      let r := Op.runAll (encodeValue builtinTable settings limit) view (b.ops settings view v)
        (s.descend (view.typeKey v) key)
      (r.1, r.2.ascend) := by
  rw [encodeValue, hs.beginDocument, resolve_builtinTable, h]
  rfl

/-- A value that the table does not know is refused. -/
theorem encodeValue_of_none {v : Value} (h : view.builtin? v = none) {s : State} (hs : s.Ready) :
    encodeValue builtinTable settings (limit + 1) view v s =
      (.failed (.unsupportedType (view.typeName v)),
        s.record (.dispatched (view.typeKey v) none)) := by
  rw [encodeValue, hs.beginDocument, resolve_builtinTable, h]
  rfl

/-! ### Runs that mark nothing -/

/-- From any state that is ready the run writes the bytes and changes nothing else. -/
def Writes (r : Run) (bs : Bytes) : Prop :=
  ∀ s : State, s.Ready → ∃ t, r s = (.done, t) ∧ State.Wrote bs s.marks s t

variable {call : View → Value → Run}

theorem writes_write (bs : Bytes) : Writes (Op.run call view (.write bs)) bs := by
  intro s hs
  exact ⟨s.record (.wrote bs), State.put_eq hs.room _, .record hs.room (.wrote bs)⟩

theorem writes_nil : Writes (Op.runAll call view []) [] := fun s hs => ⟨s, rfl, .refl hs.room⟩

theorem writes_cons {op : Op} {ops : List Op} {bs cs : Bytes} (h : Writes (Op.run call view op) bs)
    (hs : Writes (Op.runAll call view ops) cs) : Writes (Op.runAll call view (op :: ops)) (bs ++ cs) := by
  intro s hr
  obtain ⟨t, ht, hst⟩ := h s hr
  obtain ⟨u, hu, htu⟩ := hs t (hr.of_wrote hst)
  rw [hst.marks] at htu
  refine ⟨u, ?_, hst.trans htu⟩
  rw [Op.runAll, ht]
  exact hu

theorem writes_singleton {op : Op} {bs : Bytes} (h : Writes (Op.run call view op) bs) :
    Writes (Op.runAll call view [op]) bs := by
  have hnil : Writes (Op.runAll call view []) [] := writes_nil
  have := writes_cons h hnil
  rwa [List.append_nil] at this

theorem run_value (v : Value) (s : State) : Op.run call view (.value v) s = call view v s := rfl

theorem writes_value {v : Value} {bs : Bytes} (h : Writes (call view v) bs) :
    Writes (Op.run call view (.value v)) bs := h

/-- A tag is written before what it stands for. -/
theorem writes_semantic {number : UInt64} {v : Value} {bs : Bytes} (h : Writes (call view v) bs) :
    Writes (Op.runAll call view (Op.semantic number (.known v) false))
      (Head.bytes .tag number ++ bs) :=
  writes_cons (writes_write _) (writes_singleton (writes_value h))

/-- A call writes what the function of the value writes. -/
theorem writes_encodeValue {v : Value} {key : TypeKey} {b : Builtin} {bs : Bytes}
    (h : view.builtin? v = some (key, b))
    (hw : Writes (Op.runAll (encodeValue builtinTable settings limit) view (b.ops settings view v)) bs) :
    Writes (encodeValue builtinTable settings (limit + 1) view v) bs := by
  intro s hs
  obtain ⟨t, ht, hst⟩ := hw _ (hs.descend (view.typeKey v) key)
  refine ⟨t.ascend, ?_, hst.ascend⟩
  rw [encodeValue_of_builtin h hs, ht]

/-! ### Containers -/

namespace State

theorem opened_enter {s : State} {id : Ident} (h : id ∉ s.opened) :
    (s.enter id).opened = id :: s.opened := List.insert_of_not_mem h

/-- The header of a container: a tag if it is marked, and its head. -/
def header (sharing : Bool) (major : Major) (length : Nat) : Bytes :=
  (if sharing then Head.bytes .tag Tag.shareable else []) ++ Head.ofLength major length

/-- The state inside a container, after its header. With sharing on the container is
marked. -/
def inside (s : State) (key found : TypeKey) (id : Ident) (major : Major) (length : Nat) : State :=
  let s := s.descend key found
  let s := if s.sharing then (s.mark id).record (.marked id) else s
  (s.record (.wrote (Head.ofLength major length))).enter id

section Inside

variable {s : State} {key found : TypeKey} {id : Ident} {major : Major} {length : Nat}

theorem opened_inside (hid : id ∉ s.opened) :
    (s.inside key found id major length).opened = id :: s.opened := by
  rw [inside, opened_enter]
  · split <;> rfl
  · split <;> exact hid

theorem marks_inside : (s.inside key found id major length).marks =
    if s.sharing then (id, s.opened.length) :: s.marks else s.marks := by
  have h : (s.descend key found).sharing = s.sharing := rfl
  rw [inside, h]
  split <;> rfl

theorem sharing_inside : (s.inside key found id major length).sharing = s.sharing := by
  rw [inside]
  split <;> rfl

theorem depth_inside : (s.inside key found id major length).depth = s.depth + 1 := by
  rw [inside]
  split <;> rfl

theorem next_inside : (s.inside key found id major length).next = s.next := by
  rw [inside]
  split <;> rfl

theorem room_inside (h : s.sink.room = none) :
    (s.inside key found id major length).sink.room = none := by
  rw [inside]
  split <;> exact h

theorem bytes_inside : (s.inside key found id major length).sink.bytes =
    s.sink.bytes ++ header s.sharing major length := by
  have henter : ∀ t : State, (t.enter id).sink.bytes = t.sink.bytes :=
    fun t => (bytes_record _ _).trans (List.append_nil _)
  have hmark : ((s.descend key found).mark id).sink.bytes = s.sink.bytes := bytes_descend s key found
  have h : (s.descend key found).sharing = s.sharing := rfl
  rw [inside, henter, bytes_record, h, header]
  split
  · rw [bytes_record, hmark, ← List.append_assoc]
    rfl
  · rw [bytes_descend, List.nil_append]
    rfl

/-- Inside a container the state is ready; a new container has been given its number. -/
theorem Ready.inside (h : s.Ready) (hid : id ∉ s.opened) (hnew : ∀ n, id = .temporary n → n < s.next) :
    (s.inside key found id major length).Ready where
  room := room_inside h.room
  fresh h0 := by
    rw [depth_inside] at h0
    exact absurd h0 (Nat.succ_ne_zero _)
  unopened n hn := by
    rw [opened_inside hid, List.mem_cons] at hn
    rw [next_inside]
    rcases hn with hn | hn
    · exact hnew n hn.symm
    · exact h.unopened n hn

/-- What is done inside a container is done by its writer, after the header. -/
theorem Wrote.outside {bs : Bytes} {marks : List (Ident × Nat)} {t : State} (hid : id ∉ s.opened)
    (h : Wrote bs marks (s.inside key found id major length) t) :
    Wrote (header s.sharing major length ++ bs) marks s (t.leave id).ascend where
  bytes := by
    have ht : (t.leave id).sink.bytes = t.sink.bytes := (bytes_record _ _).trans (List.append_nil _)
    rw [show (t.leave id).ascend.sink = (t.leave id).sink from rfl, ht, h.bytes, bytes_inside,
      List.append_assoc]
  room := h.room
  marks := h.marks
  sharing := h.sharing.trans sharing_inside
  opened := by
    have ht : (t.leave id).ascend.opened = t.opened.erase id := rfl
    rw [ht, h.opened, opened_inside hid, List.erase_cons_head]
  depth := by
    have ht : (t.leave id).ascend.depth = t.depth - 1 := rfl
    rw [ht, h.depth, depth_inside, Nat.add_sub_cancel]
  next := by
    have := h.next
    rwa [next_inside] at this

end Inside

theorem admission_plain {s : State} {id : Ident} (hs : s.sharing = false) (hid : id ∉ s.opened) :
    s.admission id = .plain := by
  simp [admission, hs, hid]

theorem admission_cyclic {s : State} {id : Ident} (hs : s.sharing = false) (hid : id ∈ s.opened) :
    s.admission id = .cyclic := by
  simp [admission, hs, hid]

theorem admission_fresh {s : State} {id : Ident} (hs : s.sharing = true)
    (hid : s.marks.lookup id = none) : s.admission id = .fresh := by
  simp [admission, hs, hid]

theorem admission_marked {s : State} {id : Ident} {index : Nat} (hs : s.sharing = true)
    (hid : s.marks.lookup id = some index) : s.admission id = .marked index := by
  simp [admission, hs, hid]

end State

theorem items_known (vs : List Value) : Op.items (vs.map .known) = vs.map Op.value := by
  rw [Op.items, List.map_map]
  rfl

theorem entries_known (es : List (Value × Value)) :
    Op.entries (es.map fun (k, v) => (.known k, .known v)) = (unpair es).map Op.value := by
  induction es with
  | nil => rfl
  | cons e es ih => exact congrArg (Op.value e.1 :: Op.value e.2 :: ·) ih

/-- The function of a value that can be read as a mapping. -/
theorem ops_mapping {id : Ident} {es : List (Value × Value)} (h : (view.cell id).mapping? = some es) :
    Builtin.mapping.ops settings view (.container id) =
      [.container (.existing id) .map es.length ((unpair es).map Op.value)] := by
  rw [Builtin.ops, Builtin.ops?, h, Option.map_some, entries_known]
  rfl

/-- The function of a value that can be read as a sequence. -/
theorem ops_sequence {id : Ident} {vs : List Value} (h : (view.cell id).sequence? = some vs) :
    Builtin.sequence.ops settings view (.container id) =
      [.container (.existing id) .array vs.length (vs.map Op.value)] := by
  rw [Builtin.ops, Builtin.ops?, h, Option.map_some, items_known]
  rfl

/-- **A container that can be read is written by one operation**, that of its contents. -/
theorem exists_builtin_of_contents (settings : Settings) {id : Ident} {c : Contents}
    (h : view.contents? id = some c) :
    ∃ key b, view.builtin? (.container id) = some (key, b) ∧
      b.ops settings view (.container id) =
        [.container (.existing id) c.major c.length (c.values.map Op.value)] := by
  rw [View.contents?] at h
  cases hcell : view.cell id with
  | array vs =>
    rw [hcell] at h
    cases h
    refine ⟨.kind .array, .sequence, ?_, ops_sequence (by rw [hcell]; rfl)⟩
    simp [View.builtin?, View.kind?, hcell, Cell.kind?, Builtin.ofKind]
  | map es =>
    rw [hcell] at h
    cases h
    refine ⟨.kind .map, .mapping, ?_, ops_mapping (by rw [hcell]; rfl)⟩
    simp [View.builtin?, View.kind?, hcell, Cell.kind?, Builtin.ofKind]
  | custom cu =>
    simp only [hcell, Cell.contents?] at h
    split at h
    · next hm =>
      cases h
      refine ⟨.capability .mapping, .mapping, ?_, ops_mapping (by rw [hcell]; exact hm)⟩
      simp [View.builtin?, View.kind?, View.mapping?, View.cell?, hcell, Cell.kind?, Cell.mapping?, hm]
    · next hm hs =>
      cases h
      refine ⟨.capability .sequence, .sequence, ?_, ops_sequence (by rw [hcell]; exact hs)⟩
      simp [View.builtin?, View.kind?, View.mapping?, View.sequence?, View.cell?, hcell, Cell.kind?,
        Cell.mapping?, Cell.sequence?, hm, hs]
    · cases h

/-- A container that cannot be read has no function. -/
theorem builtin?_of_contents {id : Ident} (h : view.contents? id = none) :
    view.builtin? (.container id) = none := by
  rw [View.contents?] at h
  cases hcell : view.cell id with
  | array vs => simp [hcell, Cell.contents?] at h
  | map es => simp [hcell, Cell.contents?] at h
  | custom cu =>
    simp only [hcell, Cell.contents?] at h
    split at h
    · cases h
    · cases h
    · next hm hs =>
      simp [View.builtin?, View.kind?, View.mapping?, View.sequence?, View.cell?, hcell, Cell.kind?,
        Cell.mapping?, Cell.sequence?, hm, hs]

theorem runAll_singleton (op : Op) (s : State) : Op.runAll call view [op] s = Op.run call view op s := by
  rw [Op.runAll]
  rcases Op.run call view op s with ⟨_ | _ | _, t⟩ <;> rfl

section Container

variable {s : State} {id : Ident} {c : Contents}

/-- A container is encoded by the operation of its contents. -/
theorem encodeValue_container (settings : Settings) (limit : Nat) (hc : view.contents? id = some c)
    (hs : s.Ready) :
    ∃ key found, encodeValue builtinTable settings (limit + 1) view (.container id) s =
      let r := Op.run (encodeValue builtinTable settings limit) view
        (.container (.existing id) c.major c.length (c.values.map Op.value)) (s.descend key found)
      (r.1, r.2.ascend) := by
  obtain ⟨key, b, hb, hops⟩ := exists_builtin_of_contents settings hc
  refine ⟨view.typeKey (.container id), key, ?_⟩
  rw [encodeValue_of_builtin hb hs, hops]
  simp only [runAll_singleton]

/-- **A container that is entered** is written from inside, marked or not. -/
theorem encodeValue_enter (settings : Settings) (limit : Nat) (hc : view.contents? id = some c)
    (h0 : c.length ≠ 0) (hs : s.Ready)
    (hnew : if s.sharing then s.marks.lookup id = none else id ∉ s.opened) :
    ∃ key found, encodeValue builtinTable settings (limit + 1) view (.container id) s =
      let r := Op.runAll (encodeValue builtinTable settings limit) view (c.values.map Op.value)
        (s.inside key found id c.major c.length)
      (r.1, (r.2.leave id).ascend) := by
  obtain ⟨key, found, hrun⟩ := encodeValue_container settings limit hc hs
  refine ⟨key, found, ?_⟩
  rw [hrun, Op.run, if_neg h0, State.inside]
  have hroom : (s.descend key found).sink.room = none := hs.room
  have hsharing : (s.descend key found).sharing = s.sharing := rfl
  have hmark : ((s.descend key found).mark id).sink.room = none := hroom
  have hrecord : (((s.descend key found).mark id).record (.marked id)).sink.room = none := hroom
  cases hon : s.sharing with
  | true =>
    rw [hon, if_pos rfl] at hnew
    have ha : (s.descend key found).admission id = .fresh :=
      State.admission_fresh (hsharing.trans hon) hnew
    simp only [Owner.ident, ha, Run.andThen, State.put_eq hmark, State.put_eq hrecord, hsharing, hon,
      if_true]
  | false =>
    rw [hon, if_neg Bool.false_ne_true] at hnew
    have ha : (s.descend key found).admission id = .plain :=
      State.admission_plain (hsharing.trans hon) hnew
    simp only [Owner.ident, ha, Run.andThen, State.put_eq hroom, hsharing, hon, if_false,
      Bool.false_eq_true]

/-- **A container that was marked before** is written as a reference. -/
theorem encodeValue_again (settings : Settings) (limit : Nat) (hc : view.contents? id = some c)
    (h0 : c.length ≠ 0) (hs : s.Ready) (hon : s.sharing = true) {index : Nat}
    (hm : s.marks.lookup id = some index) :
    ∃ t, encodeValue builtinTable settings (limit + 1) view (.container id) s = (.done, t) ∧
      State.Wrote (Event.referred id index).bytes s.marks s t := by
  obtain ⟨key, found, hrun⟩ := encodeValue_container settings limit hc hs
  have ha : (s.descend key found).admission id = .marked index := State.admission_marked hon hm
  have hroom : (s.descend key found).sink.room = none := hs.room
  refine ⟨((s.descend key found).record (.referred id index)).ascend, ?_, ?_⟩
  · rw [hrun, Op.run, if_neg h0]
    simp only [Owner.ident, ha, State.put_eq hroom]
  · exact (State.Wrote.record hroom _).ascend

/-- An empty container is written as a head. -/
theorem encodeValue_empty (settings : Settings) (limit : Nat) (hc : view.contents? id = some c)
    (h0 : c.length = 0) (hs : s.Ready) :
    ∃ t, encodeValue builtinTable settings (limit + 1) view (.container id) s = (.done, t) ∧
      State.Wrote (Head.ofLength c.major 0) s.marks s t := by
  obtain ⟨key, found, hrun⟩ := encodeValue_container settings limit hc hs
  have hroom : (s.descend key found).sink.room = none := hs.room
  refine ⟨((s.descend key found).record (.wrote (Head.ofLength c.major 0))).ascend, ?_, ?_⟩
  · rw [hrun, Op.run, if_pos h0, State.put_eq hroom]
  · exact (State.Wrote.record hroom (.wrote _)).ascend

/-- **A container that closes a cycle** is refused, with sharing off. -/
theorem encodeValue_cyclic (settings : Settings) (limit : Nat) (hc : view.contents? id = some c)
    (h0 : c.length ≠ 0) (hs : s.Ready) (hoff : s.sharing = false) (ho : id ∈ s.opened) :
    ∃ t, encodeValue builtinTable settings (limit + 1) view (.container id) s =
      (.failed .cyclicStructure, t) ∧ t.sink.bytes = s.sink.bytes := by
  obtain ⟨key, found, hrun⟩ := encodeValue_container settings limit hc hs
  have ha : (s.descend key found).admission id = .cyclic := State.admission_cyclic hoff ho
  refine ⟨(s.descend key found).ascend, ?_, State.bytes_descend s key found⟩
  rw [hrun, Op.run, if_neg h0]
  simp only [Owner.ident, ha]

/-- **A container with no view** is refused. -/
theorem encodeValue_unsupported (settings : Settings) (limit : Nat) (hc : view.contents? id = none)
    (hs : s.Ready) :
    ∃ t, encodeValue builtinTable settings (limit + 1) view (.container id) s =
      (.failed (.unsupportedType (view.typeName (.container id))), t) ∧
      t.sink.bytes = s.sink.bytes :=
  ⟨_, encodeValue_of_none (builtin?_of_contents hc) hs,
    (State.bytes_record s _).trans (List.append_nil _)⟩

end Container

/-! ### Documents -/

/-- Encoding a value is one call, from the state of a new encoder. -/
theorem Encoder.encode_ofOptions {o : Options} {g : Graph} {v : Value} {sink : Sink} {next : Nat}
    {r : Outcome × State}
    (h : encodeValue o.table o.toSettings (nestingLimit g + v.tagDepth) g.view v
      (.initial sink o.sharing next) = r) :
    (ofOptions o sink next).encode g v = (ofOptions o sink next).withState r := by
  rw [← h, Encoder.encode]
  congr 1

/-- What an encoder of its own makes of a value is the outcome and what is in the sink. -/
theorem encode_of_encoder {o : Options} {g : Graph} {v : Value} {sink : Sink} {r : Outcome × Encoder}
    (h : (Encoder.ofOptions o sink).encode g v = r) : encode o g v sink = (r.1, r.2.state.sink) := by
  rw [encode, h]

/-- Encoding a value with an encoder of its own is one call. -/
theorem encode_eq {o : Options} {g : Graph} {v : Value} {sink : Sink} {r : Outcome × State}
    (h : encodeValue o.table o.toSettings (Encoder.nestingLimit g + v.tagDepth) g.view v
      (.initial sink o.sharing 0) = r) : encode o g v sink = (r.1, r.2.sink) :=
  encode_of_encoder (Encoder.encode_ofOptions h)

end CborGraph
