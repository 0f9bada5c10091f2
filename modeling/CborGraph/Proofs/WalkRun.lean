import CborGraph.Proofs.Nesting

/-!
# Encoding follows the walk

Main statement: `encode_walk`, without entries of the caller and with a sink that has no
limit, encoding a value takes the steps of its walk up to the first that fails.
`Walks.run` says so of any values and any state, by induction on the walk: a state that is
`Before` values has the containers open and marked that the walk starts with.
-/

namespace CborGraph

namespace State

/-! ### What a run has done -/

/-- The run from `s` ended as `p` says and wrote the bytes of `p`. If it came to its end,
`marks` are marked. -/
structure Did (p : Outcome × Bytes) (marks : Marks) (s : State) (r : Outcome × State) : Prop where
  outcome : r.1 = p.1
  bytes : r.2.sink.bytes = s.sink.bytes ++ p.2
  wrote : p.1 = .done → Wrote p.2 marks s r.2

namespace Did

variable {p q : Outcome × Bytes} {marks marks' : Marks} {s t : State} {r : Outcome × State}

theorem of_wrote {bs : Bytes} (h : Wrote bs marks s t) : Did (.done, bs) marks s (.done, t) :=
  ⟨rfl, h.bytes, fun _ => h⟩

theorem of_failed (e : EncodeError) (h : t.sink.bytes = s.sink.bytes) :
    Did (.failed e, []) marks s (.failed e, t) where
  outcome := rfl
  bytes := by rw [h, List.append_nil]
  wrote hp := by cases hp

theorem write {call : View → Value → Run} {view : View} (h : s.sink.room = none) (bs : Bytes) :
    Did (.done, bs) s.marks s (Op.run call view (.write bs) s) := by
  rw [Op.run, put_eq h]
  exact of_wrote (.record h (.wrote bs))

/-- What is done inside a call is done by the call. -/
theorem ascend {key found : TypeKey} (h : Did p marks (s.descend key found) r) :
    Did p marks s (r.1, r.2.ascend) where
  outcome := h.outcome
  bytes := by rw [← bytes_descend s key found]; exact h.bytes
  wrote hp := (h.wrote hp).ascend

/-- What is done inside a container is done by its writer, after the header. -/
theorem outside {key found : TypeKey} {id : Ident} {major : Major} {length : Nat} (hid : id ∉ s.opened)
    (h : Did p marks (s.inside key found id major length) r) :
    Did (Step.andThen (.done, header s.sharing major length) p) marks s
      (r.1, (r.2.leave id).ascend) where
  outcome := h.outcome
  bytes := by
    have hleave : (r.2.leave id).ascend.sink.bytes = r.2.sink.bytes :=
      (bytes_record _ _).trans (List.append_nil _)
    rw [hleave, h.bytes, bytes_inside, List.append_assoc]
    rfl
  wrote hp := (h.wrote hp).outside hid

/-- Operations are run one after the other. -/
theorem andThen {call : View → Value → Run} {view : View} {op : Op} {ops : List Op}
    (h : Did p marks s (Op.run call view op s))
    (hk : ∀ t, Wrote p.2 marks s t → Did q marks' t (Op.runAll call view ops t)) :
    Did (Step.andThen p q) marks' s (Op.runAll call view (op :: ops) s) := by
  rw [Op.runAll]
  rcases hr : Op.run call view op s with ⟨o, t⟩
  rw [hr] at h
  obtain ⟨o', bs⟩ := p
  obtain rfl : o = o' := h.outcome
  cases o with
  | done =>
    have hw := h.wrote rfl
    have hq := hk t hw
    refine ⟨hq.outcome, ?_, fun hp => hw.trans (hq.wrote hp)⟩
    rw [hq.bytes, hw.bytes, List.append_assoc]
    rfl
  | failed e => exact ⟨rfl, h.bytes, fun hp => by cases hp⟩
  | exhausted => exact ⟨rfl, h.bytes, fun hp => by cases hp⟩

end Did

/-! ### States before values -/

/-- The state has these containers open and marked. It is not between documents, unless there
is one value and nothing is marked. -/
structure Before (sharing : Bool) (opened : List Ident) (marks : Marks) (vs : List Value)
    (s : State) : Prop where
  room : s.sink.room = none
  unopened : ∀ n, .temporary n ∈ s.opened → n < s.next
  sharing : s.sharing = sharing
  opened : s.opened = opened
  marks : s.marks = marks
  fresh : s.depth = 0 → vs.length ≤ 1 ∧ (vs ≠ [] → s.marks = [])

namespace Before

variable {sharing : Bool} {opened : List Ident} {marks marks' : Marks} {v : Value} {vs us : List Value}
variable {s t : State} {key found : TypeKey} {id : Ident}

theorem ready (h : Before sharing opened marks (v :: vs) s) : s.Ready where
  room := h.room
  fresh h0 := (h.fresh h0).2 (List.cons_ne_nil v vs)
  unopened := h.unopened

/-- After the first value the state is before the others. -/
theorem after {bs : Bytes} (h : Before sharing opened marks (v :: vs) s) (hw : Wrote bs marks' s t) :
    Before sharing opened marks' vs t where
  room := hw.room
  unopened n hn := lt_of_lt_of_le (h.unopened n (hw.opened ▸ hn)) hw.next
  sharing := hw.sharing.trans h.sharing
  opened := hw.opened.trans h.opened
  marks := hw.marks
  fresh h0 := by
    have hlen := (h.fresh (hw.depth ▸ h0)).1
    rw [List.length_cons] at hlen
    have hnil : vs = [] := List.length_eq_zero_iff.mp (by omega)
    subst hnil
    exact ⟨Nat.zero_le 1, fun hne => absurd rfl hne⟩

theorem descend (h : Before sharing opened marks vs s) :
    Before sharing opened marks us (s.descend key found) :=
  ⟨h.room, h.unopened, h.sharing, h.opened, h.marks, fun h0 => absurd h0 (Nat.succ_ne_zero _)⟩

/-- Inside a container of a graph, the state is before the values. -/
theorem inside {g : Graph} (h : Before sharing opened marks (v :: vs) s)
    (ht : Tracked g sharing opened marks) {c : Contents} (hc : g.view.contents? id = some c)
    (h0 : c.length ≠ 0) (he : Enters sharing opened marks id) (key found : TypeKey) :
    Before sharing (id :: opened) (marksInside sharing opened marks id) c.values
      (s.inside key found id c.major c.length) := by
  have hid : id ∉ s.opened := by
    rw [h.opened]
    exact ht.not_mem_of_enters he
  have hnew : ∀ n, id = .temporary n → n < s.next := by
    intro n hn
    obtain ⟨i, _, hi⟩ := g.exists_stored hc h0
    rw [hi] at hn
    cases hn
  have hready : (s.inside key found id c.major c.length).Ready := h.ready.inside hid hnew
  refine ⟨hready.room, hready.unopened, ?_, ?_, ?_, ?_⟩
  · rw [sharing_inside, h.sharing]
  · rw [opened_inside hid, h.opened]
  · rw [marks_inside, h.sharing, h.opened, h.marks, marksInside]
  · intro hd
    rw [depth_inside] at hd
    exact absurd hd (Nat.succ_ne_zero _)

end Before

/-- A value is encoded, and then the others. -/
theorem Did.cons {call : View → Value → Run} {view : View} {sharing : Bool} {opened : List Ident}
    {marks marks₁ marks' : Marks} {v : Value} {vs : List Value} {s : State} {p q : Outcome × Bytes}
    (hs : Before sharing opened marks (v :: vs) s) (h : Did p marks₁ s (call view v s))
    (hk : ∀ t, Before sharing opened marks₁ vs t →
      Did q marks' t (Op.runAll call view (vs.map Op.value) t)) :
    Did (Step.andThen p q) marks' s (Op.runAll call view ((v :: vs).map Op.value) s) := by
  have hv : Did p marks₁ s (Op.run call view (.value v) s) := h
  exact hv.andThen fun t ht => hk t (hs.after ht)

end State

/-! ### One value -/

section OneValue

variable {settings : Settings} {view : View} {s : State}

/-- A value that is refused ends the run, and nothing is written for it. -/
theorem encodeValue_refused (limit : Nat) {v : Value} {e : EncodeError} (h : view.refusal? settings v = some e)
    (hs : s.Ready) :
    ∃ t, encodeValue builtinTable settings (limit + 1) view v s = (.failed e, t) ∧
      t.sink.bytes = s.sink.bytes := by
  cases v with
  | naiveDateTime t =>
    simp only [View.refusal?] at h
    split at h
    · next ht =>
      cases h
      exact encodeValue_naiveDateTime ht hs
    · cases h
  | container id =>
    simp only [View.refusal?] at h
    split at h
    · next hc =>
      cases h
      exact encodeValue_unsupported settings limit hc hs
    · cases h
  | _ => cases h

/-- A tag is written, and then what it stands for is encoded one call deeper. -/
theorem encodeValue_tag (limit : Nat) (number : UInt64) (v : Value) (hs : s.Ready) :
    encodeValue builtinTable settings (limit + 1) view (.tag number v) s =
      let r := Op.runAll (encodeValue builtinTable settings limit) view
        (.head .tag number :: [v].map Op.value) (s.descend (.kind .tag) (.kind .tag))
      (r.1, r.2.ascend) :=
  encodeValue_of_builtin (b := .tag) rfl hs

end OneValue

/-! ### The whole walk -/

open State in
/-- **Encoding values takes the steps of the walk**, by induction on the walk. -/
theorem Walks.run {settings : Settings} {g : Graph} {sharing : Bool} {opened : List Ident}
    {marks marks' : Marks} {vs : List Value} {w : Walk}
    (hw : Walks settings g.view sharing opened marks vs w marks') :
    ∀ {limit s}, Tracked g sharing opened marks → w.height ≤ limit → Before sharing opened marks vs s →
      Did (Step.run (w.steps sharing settings.compactFloats)) marks' s
        (Op.runAll (encodeValue builtinTable settings limit) g.view (vs.map Op.value) s) := by
  induction hw with
  | done =>
    intro limit s _ _ hs
    have hwrote := Wrote.refl hs.room
    rw [hs.marks] at hwrote
    exact Did.of_wrote hwrote
  | @scalar _ _ v _ _ _ _ hv _ ih =>
    intro limit s ht hl hs
    obtain ⟨hl₁, hl₂⟩ := max_le_iff.mp hl
    have hwrites : Writes (encodeValue builtinTable settings limit g.view v) _ := writes_scalar hv hl₁
    obtain ⟨t, hrun, hwrote⟩ := hwrites s hs.ready
    rw [hs.marks] at hwrote
    have hhead := Did.of_wrote hwrote
    rw [← hrun] at hhead
    exact .cons hs hhead fun t hst => ih ht hl₂ hst
  | refused hv _ ih =>
    intro limit s ht hl hs
    obtain ⟨hl₁, hl₂⟩ := max_le_iff.mp hl
    obtain ⟨limit, rfl⟩ := Nat.exists_eq_add_of_le' hl₁
    obtain ⟨t, hrun, hbytes⟩ := encodeValue_refused limit hv hs.ready
    refine .cons hs ?_ fun t hst => ih ht hl₂ hst
    rw [hrun]
    exact Did.of_failed _ hbytes
  | @tag opened marks number v _ _ _ _ _ hp _ ihp ih =>
    intro limit s ht hl hs
    obtain ⟨hl₁, hl₂⟩ := max_le_iff.mp hl
    obtain ⟨limit, rfl⟩ := Nat.exists_eq_add_of_le' (le_trans (Nat.le_add_left 1 _) hl₁)
    rw [Walk.steps, Step.run_around]
    refine .cons hs ?_ fun t hst => ih (hp.tracked ht) hl₂ hst
    rw [encodeValue_tag _ _ _ hs.ready]
    have hin : Before sharing opened marks [v, v] (s.descend (.kind .tag) (.kind .tag)) := hs.descend
    refine Did.ascend (Did.andThen (Did.write hin.room _) fun t hst => ?_)
    rw [hin.marks] at hst
    exact ihp ht (Nat.le_of_succ_le_succ hl₁) (hin.after hst)
  | empty hc h0 _ ih =>
    intro limit s ht hl hs
    obtain ⟨hl₁, hl₂⟩ := max_le_iff.mp hl
    obtain ⟨limit, rfl⟩ := Nat.exists_eq_add_of_le' hl₁
    obtain ⟨t, hrun, hwrote⟩ := encodeValue_empty settings limit hc h0 hs.ready
    rw [hs.marks] at hwrote
    have hhead := Did.of_wrote hwrote
    rw [← hrun] at hhead
    exact .cons hs hhead fun t hst => ih ht hl₂ hst
  | again hc h0 hon hm _ ih =>
    intro limit s ht hl hs
    obtain ⟨hl₁, hl₂⟩ := max_le_iff.mp hl
    obtain ⟨limit, rfl⟩ := Nat.exists_eq_add_of_le' hl₁
    rw [← hs.marks] at hm
    obtain ⟨t, hrun, hwrote⟩ :=
      encodeValue_again settings limit hc h0 hs.ready (hs.sharing.trans hon) hm
    rw [hs.marks] at hwrote
    have hhead := Did.of_wrote hwrote
    rw [← hrun] at hhead
    exact .cons hs hhead fun t hst => ih ht hl₂ hst
  | cyclic hc h0 hoff ho _ ih =>
    intro limit s ht hl hs
    obtain ⟨hl₁, hl₂⟩ := max_le_iff.mp hl
    obtain ⟨limit, rfl⟩ := Nat.exists_eq_add_of_le' hl₁
    rw [← hs.opened] at ho
    obtain ⟨t, hrun, hbytes⟩ :=
      encodeValue_cyclic settings limit hc h0 hs.ready (hs.sharing.trans hoff) ho
    refine .cons hs ?_ fun t hst => ih ht hl₂ hst
    rw [hrun]
    exact Did.of_failed _ hbytes
  | @entered _ _ id c _ _ _ _ _ hc h0 hnew hb _ ihb ih =>
    intro limit s ht hl hs
    obtain ⟨hl₁, hl₂⟩ := max_le_iff.mp hl
    obtain ⟨limit, rfl⟩ := Nat.exists_eq_add_of_le' (le_trans (Nat.le_add_left 1 _) hl₁)
    have hin := ht.inside hc h0 hnew
    have hnew' := hnew
    rw [Enters, ← hs.sharing, ← hs.opened, ← hs.marks] at hnew'
    obtain ⟨key, found, hrun⟩ := encodeValue_enter settings limit hc h0 hs.ready hnew'
    rw [Walk.steps, Step.run_around]
    refine .cons hs ?_ fun t hst => ih (hb.tracked hin).tail hl₂ hst
    have hid : id ∉ s.opened := by
      rw [hs.opened]
      exact ht.not_mem_of_enters hnew
    have hbody := ihb hin (Nat.le_of_succ_le_succ hl₁) (hs.inside ht hc h0 hnew key found)
    have hout := hbody.outside hid
    rw [hs.sharing] at hout
    rw [hrun]
    exact hout

/-- **Encoding a value takes the steps of its walk**, up to the first that fails, wherever a new
encoder begins to number containers. -/
theorem Encoder.encode_walk {o : Options} (ho : o.overrides = []) (g : Graph) (v : Value) {sink : Sink}
    (hroom : sink.room = none) (next : Nat) :
    ∃ w marks, Walks o.toSettings g.view o.sharing [] [] [v] w marks ∧
      ((ofOptions o sink next).encode g v).1 = (Step.run (w.steps o.sharing o.compactFloats)).1 ∧
      ((ofOptions o sink next).encode g v).2.state.sink.bytes =
        sink.bytes ++ (Step.run (w.steps o.sharing o.compactFloats)).2 := by
  obtain ⟨w, marks, hw, hheight⟩ := g.exists_walk o.toSettings o.sharing v
  have hbefore : State.Before o.sharing [] [] [v] (.initial sink o.sharing next) :=
    ⟨hroom, fun n hn => absurd hn List.not_mem_nil, rfl, rfl, rfl, fun _ => ⟨le_rfl, fun _ => rfl⟩⟩
  have hrun := hw.run (.nil g o.sharing) hheight hbefore
  rw [List.map_singleton, runAll_singleton, run_value, ← o.table_of_overrides ho] at hrun
  -- The call is given a name, so that the limit of nesting is not counted down.
  obtain ⟨r, hr⟩ : ∃ r, encodeValue o.table o.toSettings (nestingLimit g + v.tagDepth) g.view v
      (.initial sink o.sharing next) = r := ⟨_, rfl⟩
  rw [hr] at hrun
  rw [encode_ofOptions hr]
  exact ⟨w, marks, hw, hrun.outcome, hrun.bytes⟩

/-- Encoding a value takes the steps of its walk also if the encoder is made for it. -/
theorem encode_walk {o : Options} (ho : o.overrides = []) (g : Graph) (v : Value) {sink : Sink}
    (hroom : sink.room = none) :
    ∃ w marks, Walks o.toSettings g.view o.sharing [] [] [v] w marks ∧
      (encode o g v sink).1 = (Step.run (w.steps o.sharing o.compactFloats)).1 ∧
      (encode o g v sink).2.bytes =
        sink.bytes ++ (Step.run (w.steps o.sharing o.compactFloats)).2 := by
  obtain ⟨w, marks, hw, hout, hbytes⟩ := Encoder.encode_walk ho g v hroom 0
  obtain ⟨r, hr⟩ : ∃ r, (Encoder.ofOptions o sink).encode g v = r := ⟨_, rfl⟩
  rw [hr] at hout hbytes
  rw [encode_of_encoder hr]
  exact ⟨w, marks, hw, hout, hbytes⟩

end CborGraph
