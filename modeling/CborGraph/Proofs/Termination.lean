import CborGraph.Proofs.Calls
import CborGraph.Proofs.Reach
import CborGraph.Proofs.Restoring
import Mathlib.Algebra.Order.BigOperators.Group.Finset

/-!
# Encoding comes to an end

Values lead back to themselves, so there is no size to recurse on. What gets smaller is the set
of containers that may still be entered: with sharing on those without a mark, with sharing off
those that are not open. Going into a container takes it out of the set, and what is in the set
does not grow again when a call is over, by `State.Kept`. Between two containers there are no more calls
than tags on the values of the outer one.

Main statement: `encode_terminates`, no run nests calls deeper than `Graph.nestingBound`.
-/

namespace CborGraph

/-! ### Runs that end -/

/-- From a state with `P` the run comes to an end, in a state with `P`. -/
def Run.Ends (P : State → Prop) (r : Run) : Prop := ∀ s, P s → (r s).1 ≠ .exhausted ∧ P (r s).2

theorem State.put_ne_exhausted (e : Event) (s : State) : (put e s).1 ≠ .exhausted := by
  unfold put
  rcases s.sink.put e with ⟨_ | err, k⟩ <;> simp

theorem Run.andThen_ne_exhausted {r k : Run} {s : State} (hr : (r s).1 ≠ .exhausted)
    (hk : (k (r s).2).1 ≠ .exhausted) : (r.andThen k s).1 ≠ .exhausted := by
  unfold andThen
  rcases h : r s with ⟨_ | e | _, t⟩ <;> rw [h] at hr hk
  · exact hk
  · exact Outcome.noConfusion
  · exact hr

/-- A container comes to an end if its body does, in each state in which it is run. -/
theorem Run.admitted_ne_exhausted {head : Bytes} {id : Ident} {body : Run} {s : State}
    (hbody : ∀ u, s.Admitted u id → Enters s.sharing s.opened s.marks id →
      (body (u.enter id)).1 ≠ .exhausted) : (Run.admitted head id body s).1 ≠ .exhausted := by
  have henclosed : ∀ t, s.Admitted (State.put (.wrote head) t).2 id →
      Enters s.sharing s.opened s.marks id → (Run.enclosed head id body t).1 ≠ .exhausted :=
    fun t ha he => andThen_ne_exhausted (State.put_ne_exhausted _ t) (hbody _ ha he)
  unfold Run.admitted
  cases ha : s.admission id with
  | marked index => exact State.put_ne_exhausted _ s
  | cyclic => simp
  | plain =>
    obtain ⟨hoff, hid⟩ := State.admission_eq_plain_iff.mp ha
    refine henclosed s (.plain ha head) ?_
    rwa [Enters, hoff, if_neg Bool.false_ne_true]
  | fresh =>
    obtain ⟨hon, hnone⟩ := State.admission_eq_fresh_iff.mp ha
    refine andThen_ne_exhausted (State.put_ne_exhausted _ _) (henclosed _ (.fresh ha head) ?_)
    rwa [Enters, hon, if_pos rfl]

theorem Op.runAll_ends {P : State → Prop} {call : View → Value → Run} {view : View} {ops : List Op}
    (h : ∀ op ∈ ops, Run.Ends P (Op.run call view op)) : Run.Ends P (Op.runAll call view ops) := by
  induction ops with
  | nil => exact fun s hs => ⟨Outcome.noConfusion, hs⟩
  | cons op ops ih =>
    intro s hs
    obtain ⟨hne, ht⟩ := h op List.mem_cons_self s hs
    have hrest := ih (fun op' hop => h op' (List.mem_cons_of_mem _ hop))
    rw [Op.runAll]
    rcases hrun : Op.run call view op s with ⟨_ | e | _, t⟩ <;> rw [hrun] at hne ht
    · exact hrest t ht
    · exact ⟨hne, ht⟩
    · exact absurd rfl hne

/-! ### Scalars -/

/-- **A scalar comes to an end** from any state, by calls nested as deep as its rank. -/
theorem encodeValue_scalar_ends (settings : Settings) {limit : Nat} (view : View) {v : Value}
    (hv : v.rank ≠ 0) (hl : v.rank ≤ limit) (s : State) :
    (encodeValue builtinTable settings limit view v s).1 ≠ .exhausted := by
  induction limit using Nat.strong_induction_on generalizing view v s with
  | _ limit ih =>
  obtain ⟨limit, rfl⟩ := Nat.exists_eq_succ_of_ne_zero (show limit ≠ 0 by omega)
  obtain ⟨key, f, hfound, hsimple⟩ := Value.exists_simple settings view hv
  rw [encodeValue_of_some hfound]
  refine (Op.runAll_ends (P := fun _ => True) (fun op hop t _ => ⟨?_, trivial⟩) _ trivial).1
  cases hsimple op hop with
  | write bs => exact State.put_ne_exhausted _ t
  | fail e => exact Outcome.noConfusion
  | value hu hn => exact ih limit (Nat.lt_succ_self _) view hu (by omega) t
  | @pair a b ha hb hna hnb =>
    obtain ⟨limit, rfl⟩ := Nat.exists_eq_succ_of_ne_zero (show limit ≠ 0 by omega)
    obtain ⟨seen, id, hc, hrun⟩ := run_pair (encodeValue builtinTable settings (limit + 1)) view a b t
    obtain ⟨key, found, hcall⟩ := encodeValue_contents settings limit hc
      { t with sharing := false, next := t.next + 1 }
    have h0 : (Contents.items [a, b]).length ≠ 0 := Nat.succ_ne_zero 1
    rw [hrun, hcall, Op.run_container h0]
    refine Run.admitted_ne_exhausted fun u _ _ => ?_
    refine (Op.runAll_ends (P := fun _ => True) (fun op hop w _ => ⟨?_, trivial⟩) _ trivial).1
    have hitems : op = .value a ∨ op = .value b := by simpa [Contents.values] using hop
    rcases hitems with rfl | rfl
    · exact ih limit (by omega) seen ha (by omega) w
    · exact ih limit (by omega) seen hb (by omega) w

/-! ### What may still be entered -/

namespace State

/-- The container may be entered. -/
def Enterable (s : State) (id : Ident) : Prop := Enters s.sharing s.opened s.marks id

variable {s t u : State} {id jd : Ident}

/-- Nothing can be entered after a run inside a call that could not be entered before it. -/
theorem Kept.enterable (h : s.Kept t) (hd : s.depth ≠ 0) (hid : t.Enterable id) : s.Enterable id := by
  unfold Enterable Enters at *
  rw [h.sharing] at hid
  cases hon : s.sharing with
  | false =>
    have hsound : s.Sound := fun hs => absurd hs (by simp [hon])
    rw [hon, h.opened hsound] at hid
    exact hid
  | true =>
    rw [hon, if_pos rfl] at hid
    rw [if_pos rfl, Option.eq_none_iff_forall_ne_some]
    intro index hm
    obtain ⟨index', hm'⟩ := h.marked (.inl hd) id ⟨index, hm⟩
    rw [hid] at hm'
    cases hm'

/-- A container cannot be entered from inside itself. -/
theorem Admitted.enterable (h : s.Admitted u id) (hd : s.depth ≠ 0)
    (hjd : (u.enter id).Enterable jd) : s.Enterable jd ∧ jd ≠ id := by
  have hout : u.Enterable jd ∧ jd ≠ id := by
    unfold Enterable Enters at *
    have hsharing : (u.enter id).sharing = u.sharing := rfl
    have hmarks : (u.enter id).marks = u.marks := rfl
    have hopened : (u.enter id).opened = u.opened.insert id := rfl
    rw [hsharing, hmarks, hopened] at hjd
    cases hon : u.sharing with
    | false => simpa [hon, not_or, and_comm] using hjd
    | true =>
      rw [hon, if_pos rfl] at hjd
      refine ⟨hjd, ?_⟩
      rintro rfl
      obtain ⟨index, hm⟩ := h.marked hon
      rw [hjd] at hm
      cases hm
  exact ⟨h.kept.enterable hd hout.1, hout.2⟩

/-- Of `ids` only `free` may still be entered. -/
def Free (ids free : Finset Ident) (s : State) : Prop := ∀ id ∈ ids, s.Enterable id → id ∈ free

/-- Inside a call, of `ids` only `free` may still be entered. -/
structure Within (ids free : Finset Ident) (s : State) : Prop where
  depth : s.depth ≠ 0
  free : s.Free ids free

namespace Within

variable {ids free : Finset Ident}

theorem of_kept (hs : s.Within ids free) (h : s.Kept t) : t.Within ids free where
  depth := by
    rw [h.depth]
    exact hs.depth
  free id hid he := hs.free id hid (h.enterable hs.depth he)

/-- Inside a call no document begins. -/
theorem beginDocument (hs : s.Within ids free) : s.beginDocument.Free ids free := by
  rw [State.beginDocument, if_neg hs.depth]
  exact hs.free

theorem descend (hs : s.Free ids free) (key found : TypeKey) : (s.descend key found).Within ids free :=
  ⟨Nat.succ_ne_zero _, hs⟩

/-- A container that is entered cannot be entered any more. -/
theorem enter (hs : s.Within ids free) (h : s.Admitted u id) :
    (u.enter id).Within ids (free.erase id) where
  depth := by
    change u.depth ≠ 0
    rw [h.kept.depth]
    exact hs.depth
  free jd hjd he := by
    obtain ⟨he, hne⟩ := h.enterable hs.depth he
    exact Finset.mem_erase.mpr ⟨hne, hs.free jd hjd he⟩

end Within

end State

/-! ### The bound -/

namespace Graph

/-- The nesting that containers allow: one call for each, and one for each tag on a value in it. -/
def weight (g : Graph) (ids : Finset Ident) : Nat := ∑ id ∈ ids, ((g.view.cell id).tagDepth + 1)

theorem weight_erase {g : Graph} {ids : Finset Ident} {id : Ident} (h : id ∈ ids) :
    g.weight (ids.erase id) + ((g.view.cell id).tagDepth + 1) = g.weight ids := by
  unfold weight
  rw [Finset.sum_erase_add _ _ h]

/-- **How deep calls are nested at most**: one call for each container that can be reached, one
for each tag between them, and those of a scalar. -/
def nestingBound (g : Graph) (v : Value) : Nat := v.tagDepth + g.weight (g.reachable v) + scalarDepth

/-- Containers with something in them allow no more nesting than the graph does. -/
theorem weight_le_depth {g : Graph} {ids : Finset Ident} (h : ∀ id ∈ ids, g.view.Nonempty id) :
    g.weight ids ≤ g.depth := by
  have hopened : ∃ opened : List Ident, (∀ id, id ∈ opened ↔ id ∈ ids) ∧
      g.weight ids + g.nesting opened ≤ g.depth := by
    induction ids using Finset.induction_on with
    | empty =>
      refine ⟨[], by simp, ?_⟩
      rw [g.nesting_nil]
      simp [weight]
    | insert id ids hid ih =>
      obtain ⟨opened, hmem, hle⟩ := ih fun jd hjd => h jd (Finset.mem_insert_of_mem hjd)
      obtain ⟨c, hc, h0⟩ := h id (Finset.mem_insert_self id ids)
      obtain ⟨i, cell, rfl, hi, _⟩ := g.exists_cell hc h0
      have hcell : g.view.cell (.stored i) = cell := by simp [view, hi]
      have hnot : .stored (0 + i) ∉ opened := by rwa [Nat.zero_add, hmem]
      have hi' : g.cells.toList[i]? = some cell := by rwa [Array.getElem?_toList]
      have hless := Cell.nesting_cons hi' hnot
      rw [Nat.zero_add] at hless
      refine ⟨.stored i :: opened, fun jd => by simp [hmem], ?_⟩
      rw [weight, Finset.sum_insert hid, hcell]
      unfold weight at hle
      unfold nesting at hle ⊢
      omega
  obtain ⟨opened, _, hle⟩ := hopened
  omega

theorem nestingBound_le (g : Graph) (v : Value) :
    g.nestingBound v ≤ Encoder.nestingLimit g + v.tagDepth := by
  have hle : g.weight (g.reachable v) ≤ g.depth :=
    weight_le_depth fun id hid => (mem_reachable_iff.mp hid).2
  unfold nestingBound Encoder.nestingLimit Encoder.allowance scalarDepth
  omega

end Graph

/-! ### Values -/

section

variable {settings : Settings} {g : Graph} {ids free : Finset Ident} {limit : Nat}

/-- Values come to an end, one after the other, if each does. -/
theorem runAll_values_ends {vs : List Value}
    (h : ∀ v ∈ vs, ∀ s : State, s.beginDocument.Free ids free →
      (encodeValue builtinTable settings limit g.view v s).1 ≠ .exhausted) :
    Run.Ends (State.Within ids free)
      (Op.runAll (encodeValue builtinTable settings limit) g.view (vs.map Op.value)) := by
  refine Op.runAll_ends fun op hop t ht => ?_
  obtain ⟨v, hv, rfl⟩ := List.mem_map.mp hop
  have hkept := State.frame_kept.encodeValue builtinTable settings limit g.view v
    (s := t) fun h0 => absurd h0 ht.depth
  exact ⟨h v hv t ht.beginDocument, ht.of_kept hkept⟩

/-- A tag comes to an end if what it stands for does. -/
theorem encodeValue_tag_ends {v : Value}
    (h : ∀ s : State, s.beginDocument.Free ids free →
      (encodeValue builtinTable settings limit g.view v s).1 ≠ .exhausted)
    (number : UInt64) {s : State} (hs : s.beginDocument.Free ids free) :
    (encodeValue builtinTable settings (limit + 1) g.view (.tag number v) s).1 ≠ .exhausted := by
  have hvalue : Run.Ends (State.Within ids free)
      (Op.runAll (encodeValue builtinTable settings limit) g.view ([v].map Op.value)) :=
    runAll_values_ends fun u hu => by rwa [List.mem_singleton.mp hu]
  have hops : Run.Ends (State.Within ids free)
      (Op.runAll (encodeValue builtinTable settings limit) g.view [.head .tag number, .value v]) := by
    refine Op.runAll_ends fun op hop t ht => ?_
    have hcases : op = .head .tag number ∨ op = .value v := by simpa using hop
    rcases hcases with rfl | rfl
    · exact ⟨State.put_ne_exhausted _ t, ht.of_kept (.put _ t)⟩
    · rw [← runAll_singleton]
      exact hvalue t ht
  rw [encodeValue_tagged]
  exact (hops _ (.descend hs _ _)).1

/-- A container comes to an end if the values in it do once it cannot be entered any more. -/
theorem encodeValue_container_ends {id : Ident} (hid : g.view.Nonempty id → id ∈ ids)
    (h : ∀ c, g.view.contents? id = some c → id ∈ ids → id ∈ free → ∀ v ∈ c.values, ∀ s : State,
      s.beginDocument.Free ids (free.erase id) →
        (encodeValue builtinTable settings limit g.view v s).1 ≠ .exhausted)
    {s : State} (hs : s.beginDocument.Free ids free) :
    (encodeValue builtinTable settings (limit + 1) g.view (.container id) s).1 ≠ .exhausted := by
  cases hc : g.view.contents? id with
  | none =>
    rw [encodeValue_unreadable settings limit hc]
    exact Outcome.noConfusion
  | some c =>
    obtain ⟨key, found, hcall⟩ := encodeValue_contents settings limit hc s
    rw [hcall]
    by_cases h0 : c.length = 0
    · rw [Op.run, if_pos h0]
      exact State.put_ne_exhausted _ _
    · rw [Op.run_container h0]
      refine Run.admitted_ne_exhausted fun u hu he => ?_
      have hmem : id ∈ ids := hid ⟨c, hc, h0⟩
      have hwithin : (s.beginDocument.descend key found).Within ids free := .descend hs _ _
      have hfree : id ∈ free := hwithin.free id hmem he
      exact (runAll_values_ends (h c hc hmem hfree) _ (hwithin.enter hu)).1

end

/-- **A value comes to an end** if the limit leaves room for its tags, for the containers that may
still be entered, and for a scalar. The induction is on those containers, and inside on the tags
of the value. -/
theorem encodeValue_ends (settings : Settings) {g : Graph} {ids : Finset Ident}
    (hclosed : ∀ id ∈ ids, g.view.targets (g.view.inside id) ⊆ ids) (free : Finset Ident) (v : Value)
    {limit : Nat} (hv : g.view.targets [v] ⊆ ids)
    (hl : v.tagDepth + g.weight free + scalarDepth ≤ limit) {s : State}
    (hs : s.beginDocument.Free ids free) :
    (encodeValue builtinTable settings limit g.view v s).1 ≠ .exhausted := by
  induction free using Finset.strongInduction generalizing v limit s with
  | _ free ih =>
  have hscalar : scalarDepth = 4 := rfl
  obtain ⟨limit, rfl⟩ := Nat.exists_eq_succ_of_ne_zero (show limit ≠ 0 by omega)
  induction v generalizing limit s with
  | tag number u ihu =>
    have htag : (Value.tag number u).tagDepth = u.tagDepth + 1 := rfl
    obtain ⟨limit, rfl⟩ := Nat.exists_eq_succ_of_ne_zero (show limit ≠ 0 by omega)
    exact encodeValue_tag_ends (fun t ht => ihu hv ht limit (by omega)) number hs
  | container id =>
    refine encodeValue_container_ends
      (fun hne => hv (View.mem_targets_singleton_iff.mpr ⟨rfl, hne⟩)) ?_ hs
    intro c hc hid hfree u hu t ht
    have hsub := (View.targets_subset_inside hc hu).trans (hclosed id hid)
    have htags : u.tagDepth ≤ (g.view.cell id).tagDepth :=
      Cell.tagDepth_le (Cell.mem_values_of_contents hc hu)
    have hweight := g.weight_erase hfree
    exact ih _ (Finset.erase_ssubset hfree) u hsub (by omega) ht
  | _ =>
    refine encodeValue_scalar_ends settings g.view ?_ (le_trans (Value.rank_le _) (by omega)) s
    simp [Value.rank]

/-- **Encoding comes to an end**, however the values of a graph lead back to themselves, with sharing
on or off, from any state of the encoder and with any sink. Let `n` be the bound that is
computed from the containers that can be reached and the tags on the values in them. No run
comes to nest calls deeper: where the limit is `n` or more a run ends in success or with an
error, and it is the run with the limit `n`. The limit of an encoder is not less. -/
theorem encode_terminates {o : Options} (ho : o.overrides = []) (g : Graph) (v : Value) :
    let n := v.tagDepth + (∑ id ∈ g.reachable v, ((g.view.cell id).tagDepth + 1)) + scalarDepth
    (∀ id, id ∈ g.reachable v ↔ g.view.Reaches v id ∧ g.view.Nonempty id) ∧
      (∀ limit, n ≤ limit → ∀ s : State,
        let r := encodeValue o.table o.toSettings limit g.view v s
        (r.1 = .done ∨ ∃ e, r.1 = .failed e) ∧ r = encodeValue o.table o.toSettings n g.view v s) ∧
      n ≤ Encoder.nestingLimit g + v.tagDepth ∧
      ∀ sink, (encode o g v sink).1 = .done ∨ ∃ e, (encode o g v sink).1 = .failed e := by
  intro n
  have hends : ∀ limit, n ≤ limit → ∀ s : State,
      (encodeValue o.table o.toSettings limit g.view v s).1 ≠ .exhausted := by
    intro limit hl s
    rw [o.table_of_overrides ho]
    exact encodeValue_ends o.toSettings (fun id hid => Graph.targets_inside_subset hid) (g.reachable v) v
      (g.targets_subset_reachable v) hl fun id hid _ => hid
  have hcases : ∀ out : Outcome, out ≠ .exhausted → out = .done ∨ ∃ e, out = .failed e := by
    rintro (_ | e | _) hne
    · exact .inl rfl
    · exact .inr ⟨e, rfl⟩
    · exact absurd rfl hne
  refine ⟨fun id => Graph.mem_reachable_iff, fun limit hl s => ⟨hcases _ (hends limit hl s), ?_⟩,
    g.nestingBound_le v, fun sink => hcases _ ?_⟩
  · exact agrees_encodeValue o.table o.toSettings hl g.view v s (hends n le_rfl s)
  · obtain ⟨r, hr⟩ : ∃ r, encodeValue o.table o.toSettings (Encoder.nestingLimit g + v.tagDepth)
        g.view v (.initial sink o.sharing 0) = r := ⟨_, rfl⟩
    have hne := hends _ (g.nestingBound_le v) (.initial sink o.sharing 0)
    rw [hr] at hne
    rw [encode_eq hr]
    exact hne

/-- An array, a map and a value of the caller's own that lead to one another in a circle, through a tag
in a tag, a key, and a view as a mapping. A fourth container is not on the way. -/
theorem encode_terminates_in_circle :
    let g : Graph := ⟨#[.array [.tag 5 (.tag 6 (.container (.stored 1)))],
      .map [(.container (.stored 2), .decimal .nan)],
      .custom ⟨"T", [], none, some [(.integer 1, .container (.stored 0))]⟩, .array [.tag 7 .null]]⟩
    let v : Value := .container (.stored 0)
    ({ sharing := true } : Options).overrides = [] ∧
      .stored 2 ∈ g.reachable v ∧ .stored 3 ∉ g.reachable v ∧ g.nestingBound v = 9 ∧
      (∀ limit, 9 ≤ limit → ∀ s : State,
        (encodeValue ({ sharing := true } : Options).table {} limit g.view v s).1 = .done ∨
          ∃ e, (encodeValue ({ sharing := true } : Options).table {} limit g.view v s).1 = .failed e) ∧
      (encode { sharing := true } g v .unlimited).1 = .done ∧
      (encode {} g v .unlimited).1 = .failed .cyclicStructure := by
  intro g v
  have hbound : g.nestingBound v = 9 := by decide +kernel
  obtain ⟨_, hends, _⟩ := encode_terminates (o := { sharing := true }) rfl g v
  refine ⟨rfl, by decide +kernel, by decide +kernel, hbound, fun limit hl s => ?_, by decide +kernel,
    by decide +kernel⟩
  exact (hends limit (le_trans (le_of_eq hbound) hl) s).1

end CborGraph
