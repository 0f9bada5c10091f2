import CborGraph.Proofs.ItemReader
import CborGraph.Proofs.Sized
import CborGraph.Proofs.WalkRun

/-!
# The items of a walk

If nothing on a walk is refused, it goes through the values and no more is to be said of it than
which containers are entered and which are referred to: `Visits`. Then there is an item for
each value, and the steps of the walk write the bytes of the items, `Visits.run_steps`. The
items of a sized graph fit, so a decoder reads them back.

Main statement: `encode_item`, an encoding that succeeds has written one item.
-/

namespace CborGraph

/-! ### Steps without refusals -/

theorem Step.andThen_eq_done_iff (p q : Outcome × Bytes) :
    (Step.andThen p q).1 = .done ↔ p.1 = .done ∧ q.1 = .done := by
  obtain ⟨_ | _ | _, bs⟩ := p <;> simp [Step.andThen]

/-- The steps are taken to the end exactly if nothing is refused. -/
theorem Walk.run_steps_eq_done_iff (sharing compact : Bool) (w : Walk) :
    (Step.run (w.steps sharing compact)).1 = .done ↔ w.refusals = [] := by
  induction w with
  | done => exact iff_of_true rfl rfl
  | scalar item rest ih =>
    rw [steps, Step.run, Step.andThen_eq_done_iff, ih]
    exact and_iff_right rfl
  | refused e rest ih =>
    rw [steps, Step.run, Step.andThen_eq_done_iff]
    exact iff_of_false (fun h => Outcome.noConfusion h.1) (List.cons_ne_nil _ _)
  | tag number payload rest ihp ih =>
    rw [steps, Step.run_around, Step.andThen_eq_done_iff, Step.andThen_eq_done_iff, ihp, ih, refusals,
      List.append_eq_nil_iff]
    exact and_congr_left fun _ => and_iff_right rfl
  | empty c rest ih =>
    rw [steps, Step.run, Step.andThen_eq_done_iff, ih]
    exact and_iff_right rfl
  | again id index rest ih =>
    rw [steps, Step.run, Step.andThen_eq_done_iff, ih]
    exact and_iff_right rfl
  | entered id c body rest ihb ih =>
    rw [steps, Step.run_around, Step.andThen_eq_done_iff, Step.andThen_eq_done_iff, ihb, ih, refusals,
      List.append_eq_nil_iff]
    exact and_congr_left fun _ => and_iff_right rfl

/-! ### Values that are visited -/

/-- The walk goes through these values in order, and nothing is refused. -/
inductive Visits (settings : Settings) (view : View) : List Value → Walk → Prop
  /-- No value. -/
  | done : Visits settings view [] .done
  /-- A scalar. -/
  | scalar {v item vs rest} (hv : settings.item? v = some item) (hrest : Visits settings view vs rest) :
      Visits settings view (v :: vs) (.scalar item rest)
  /-- A tag, and what it stands for. -/
  | tag {number v payload vs rest} (hpayload : Visits settings view [v] payload)
      (hrest : Visits settings view vs rest) :
      Visits settings view (.tag number v :: vs) (.tag number payload rest)
  /-- An empty container. -/
  | empty {id c vs rest} (hc : view.contents? id = some c) (h0 : c.length = 0)
      (hrest : Visits settings view vs rest) :
      Visits settings view (.container id :: vs) (.empty c rest)
  /-- A container that is referred to. -/
  | again {id c index vs rest} (hc : view.contents? id = some c) (h0 : c.length ≠ 0)
      (hrest : Visits settings view vs rest) :
      Visits settings view (.container id :: vs) (.again id index rest)
  /-- A container that is entered, and what is in it. -/
  | entered {id c body vs rest} (hc : view.contents? id = some c) (h0 : c.length ≠ 0)
      (hbody : Visits settings view c.values body) (hrest : Visits settings view vs rest) :
      Visits settings view (.container id :: vs) (.entered id c body rest)

section Visits

variable {settings : Settings} {view : View} {sharing compact : Bool} {vs : List Value} {w : Walk}

theorem Walks.visits {opened : List Ident} {marks marks' : Marks}
    (hw : Walks settings view sharing opened marks vs w marks')
    (hok : w.refusals = []) : Visits settings view vs w := by
  induction hw with
  | done => exact .done
  | scalar hv _ ih => exact .scalar hv (ih hok)
  | refused _ _ _ => cases hok
  | tag _ _ ihp ih =>
    obtain ⟨hp, hr⟩ := List.append_eq_nil_iff.mp hok
    exact .tag (ihp hp) (ih hr)
  | empty hc h0 _ ih => exact .empty hc h0 (ih hok)
  | again hc h0 _ _ _ ih => exact .again hc h0 (ih hok)
  | cyclic _ _ _ _ _ _ => cases hok
  | entered hc h0 _ _ _ ihb ih =>
    obtain ⟨hb, hr⟩ := List.append_eq_nil_iff.mp hok
    exact .entered hc h0 (ihb hb) (ih hr)

/-- There is one item for each value. -/
theorem Visits.length_items (hw : Visits settings view vs w) (sharing : Bool) :
    (w.items sharing).length = vs.length := by
  induction hw with
  | done => rfl
  | scalar _ _ ih => rw [Walk.items, List.length_cons, List.length_cons, ih]
  | tag _ _ ihp ih =>
    rw [Walk.items, List.length_append, List.length_map, ihp, ih, List.length_cons]
    exact Nat.add_comm 1 _
  | empty _ _ _ ih => rw [Walk.items, List.length_cons, List.length_cons, ih]
  | again _ _ _ ih => rw [Walk.items, List.length_cons, List.length_cons, ih]
  | entered _ _ _ _ _ ih => rw [Walk.items, List.length_cons, List.length_cons, ih]

theorem Visits.items_singleton {v : Value} (hw : Visits settings view [v] w) (sharing : Bool) :
    ∃ item, w.items sharing = [item] :=
  List.length_eq_one_iff.mp (hw.length_items sharing)

/-! ### The bytes of the items -/

theorem Contents.wire_entered (sharing compact : Bool) (c : Contents) {parts : List Item}
    (h : parts.length = c.values.length) :
    (c.entered sharing parts).wire compact =
      State.header sharing c.major c.length ++ Item.wireAll compact parts := by
  cases sharing with
  | false => exact c.wire_item compact h
  | true =>
    rw [entered, if_pos rfl, wire_tag, c.wire_item compact h, State.header, if_pos rfl,
      List.append_assoc]

theorem Contents.length_nil {c : Contents} (h0 : c.length = 0) :
    ([] : List Item).length = c.values.length := by
  rw [c.values_eq_nil_iff.mpr h0]
  rfl

theorem wire_reference (compact : Bool) (index : Nat) :
    (Item.tag Tag.reference.toNat (.unsigned index)).wire compact = Walk.reference index := by
  rw [wire_tag, Item.wire, Walk.reference]

/-- **The steps of a walk write its items.** -/
theorem Visits.run_steps (hw : Visits settings view vs w) :
    Step.run (w.steps sharing compact) = (.done, Item.wireAll compact (w.items sharing)) := by
  induction hw with
  | done => rfl
  | scalar _ _ ih =>
    rw [Walk.steps, Step.run, ih]
    rfl
  | tag hpayload _ ihp ih =>
    obtain ⟨item, hitem⟩ := hpayload.items_singleton sharing
    rw [Walk.steps, Step.run_around, ihp, ih, Walk.items, hitem, List.map_singleton,
      List.singleton_append, Item.wireAll_singleton, Item.wireAll, wire_tag]
    rfl
  | @empty _ c _ _ _ h0 _ ih =>
    rw [Walk.steps, Step.run, ih, Walk.items, Item.wireAll, c.wire_item compact (Contents.length_nil h0),
      h0, Item.wireAll, List.append_nil]
    rfl
  | again _ _ _ ih =>
    rw [Walk.steps, Step.run, ih, Walk.items, Item.wireAll, wire_reference]
    rfl
  | entered _ _ hbody _ ihb ih =>
    rw [Walk.steps, Step.run_around, ihb, ih, Walk.items, Item.wireAll,
      Contents.wire_entered _ _ _ (hbody.length_items sharing)]
    rfl

end Visits

/-! ### The items fit -/

/-- **The items of a sized graph fit.** -/
theorem Walks.fits_items {settings : Settings} {g : Graph} {sharing : Bool} {opened : List Ident}
    {marks marks' : Marks} {vs : List Value} {w : Walk}
    (hw : Walks settings g.view sharing opened marks vs w marks') (hg : g.Sized)
    (ht : Tracked g sharing opened marks) (hvs : ∀ v ∈ vs, v.Sized) (hok : w.refusals = []) :
    Item.FitsAll (w.items sharing) := by
  induction hw with
  | done => trivial
  | scalar hv _ ih =>
    obtain ⟨hhead, htail⟩ := List.forall_mem_cons.mp hvs
    exact ⟨hhead.fits hv, ih ht htail hok⟩
  | refused _ _ _ => cases hok
  | @tag _ _ number v _ _ _ _ _ hpayload _ ihp ih =>
    obtain ⟨hp, hr⟩ := List.append_eq_nil_iff.mp hok
    obtain ⟨hhead, htail⟩ := List.forall_mem_cons.mp hvs
    have hv : ∀ u ∈ [v], u.Sized := by
      intro u hu
      rw [List.mem_singleton.mp hu]
      exact hhead
    obtain ⟨item, hitem⟩ := (hpayload.visits hp).items_singleton sharing
    have hfits := ihp ht hv hp
    rw [hitem] at hfits
    rw [Walk.items, hitem]
    exact ⟨⟨number.toNat_lt, hfits.1⟩, ih (hpayload.tracked ht) htail hr⟩
  | @empty _ _ _ c _ _ _ _ h0 _ ih =>
    obtain ⟨_, htail⟩ := List.forall_mem_cons.mp hvs
    exact ⟨c.fits_item (Contents.length_nil h0) (by rw [h0]; decide) trivial, ih ht htail hok⟩
  | again _ _ _ hm _ ih =>
    obtain ⟨_, htail⟩ := List.forall_mem_cons.mp hvs
    have hindex := lt_of_le_of_lt (ht.index_le _ _ hm) hg.size_lt
    exact ⟨⟨by decide, hindex⟩, ih ht htail hok⟩
  | cyclic _ _ _ _ _ _ => cases hok
  | @entered _ _ _ c body _ _ _ _ hc h0 hnew hbody _ ihb ih =>
    obtain ⟨hb, hr⟩ := List.append_eq_nil_iff.mp hok
    obtain ⟨_, htail⟩ := List.forall_mem_cons.mp hvs
    obtain ⟨hlength, hvalues⟩ := hg.contents hc
    have hin := ht.inside hc h0 hnew
    have hitem := c.fits_item ((hbody.visits hb).length_items sharing) hlength (ihb hin hvalues hb)
    refine ⟨?_, ih (hbody.tracked hin).tail htail hr⟩
    rw [Contents.entered]
    split
    · exact ⟨by decide, hitem⟩
    · exact hitem

/-! ### The item of a document -/

/-- **An encoding that succeeds has written one item**, that of the walk. -/
theorem encode_item {o : Options} (ho : o.overrides = []) {g : Graph} (hg : g.Sized) {v : Value}
    (hv : v.Sized) {sink : Sink} (hroom : sink.room = none) (hdone : (encode o g v sink).1 = .done) :
    ∃ w marks item, Walks o.toSettings g.view o.sharing [] [] [v] w marks ∧ w.refusals = [] ∧
      w.items o.sharing = [item] ∧ item.Fits ∧
      (encode o g v sink).2.bytes = sink.bytes ++ item.wire o.compactFloats := by
  obtain ⟨w, marks, hw, houtcome, hbytes⟩ := encode_walk ho g v hroom
  have hok : w.refusals = [] := by
    rw [← Walk.run_steps_eq_done_iff o.sharing o.compactFloats, ← houtcome]
    exact hdone
  obtain ⟨item, hitem⟩ := (hw.visits hok).items_singleton o.sharing
  have hvs : ∀ u ∈ [v], u.Sized := by
    intro u hu
    rw [List.mem_singleton.mp hu]
    exact hv
  have hfits := hw.fits_items hg (.nil g o.sharing) hvs hok
  rw [hitem] at hfits
  rw [(hw.visits hok).run_steps, hitem, Item.wireAll_singleton] at hbytes
  exact ⟨w, marks, item, hw, hok, hitem, hfits.1, hbytes⟩

/-- Bytes come from an encoding that succeeds. -/
theorem encodeToBytes_eq_some_ok_iff {o : Options} {g : Graph} {v : Value} {bs : Bytes} :
    encodeToBytes o g v = some (.ok bs) ↔
      (encode o g v .unlimited).1 = .done ∧ (encode o g v .unlimited).2.bytes = bs := by
  obtain ⟨⟨out, sink⟩, hr⟩ : ∃ r, encode o g v .unlimited = r := ⟨_, rfl⟩
  rw [encodeToBytes, hr]
  cases out with
  | done => simp [bytesOrError]
  | failed e => simp [bytesOrError]
  | exhausted => simp [bytesOrError]

/-- A walk without refusals is an encoding that succeeds. -/
theorem encode_of_walks {o : Options} (ho : o.overrides = []) {g : Graph} {v : Value} {w : Walk}
    {marks : Marks} (hw : Walks o.toSettings g.view o.sharing [] [] [v] w marks) (hok : w.refusals = [])
    {sink : Sink} (hroom : sink.room = none) :
    (encode o g v sink).1 = .done ∧ (encode o g v sink).2.bytes =
      sink.bytes ++ Item.wireAll o.compactFloats (w.items o.sharing) := by
  obtain ⟨u, _, hu, houtcome, hbytes⟩ := encode_walk ho g v hroom
  obtain ⟨rfl, _⟩ := hw.unique hu
  rw [(hw.visits hok).run_steps] at houtcome hbytes
  exact ⟨houtcome, hbytes⟩

end CborGraph
