import CborGraph.Proofs.Encounters

/-!
# Sharing

With sharing on, the containers that a walk enters are those that can be reached and are not
empty, and each is entered once: `Walks.mem_enteredIds_iff` and `Walks.nodup_enteredIds`. That
nothing is missed follows from what is marked at the end, which is closed under going into
containers.

Main statement: `encode_writes_each_once`, the output of an encoding with sharing on is one
item, in which every container is written in full when it is first met and is referred to
after that.
-/

namespace CborGraph

/-! ### What can be reached -/

/-- The container can be reached from the value. -/
inductive View.Reaches (view : View) : Value → Ident → Prop
  /-- A reference leads to its container. -/
  | here {id} : Reaches view (.container id) id
  /-- A tag leads to what it stands for. -/
  | tag {number v id} (h : Reaches view v id) : Reaches view (.tag number v) id
  /-- A container leads to the values in it. -/
  | inside {id c v jd} (hc : view.contents? id = some c) (hv : v ∈ c.values) (h : Reaches view v jd) :
      Reaches view (.container id) jd

/-- There is something in the container. -/
def View.Nonempty (view : View) (id : Ident) : Prop := ∃ c, view.contents? id = some c ∧ c.length ≠ 0

section

variable {settings : Settings} {view : View} {opened : List Ident}
variable {marks marks' : Marks} {vs : List Value} {w : Walk}

/-- **What is entered can be reached** and is not empty. -/
theorem Visits.reaches (hw : Visits settings view vs w) {id : Ident} (hid : id ∈ w.enteredIds) :
    (∃ v ∈ vs, view.Reaches v id) ∧ view.Nonempty id := by
  induction hw with
  | done => cases hid
  | scalar _ _ ih =>
    obtain ⟨⟨v, hv, hr⟩, hne⟩ := ih hid
    exact ⟨⟨v, List.mem_cons_of_mem _ hv, hr⟩, hne⟩
  | tag _ _ ihp ih =>
    rcases List.mem_append.mp hid with hid | hid
    · obtain ⟨⟨v, hv, hr⟩, hne⟩ := ihp hid
      obtain rfl := List.mem_singleton.mp hv
      exact ⟨⟨_, List.mem_cons_self, .tag hr⟩, hne⟩
    · obtain ⟨⟨v, hv, hr⟩, hne⟩ := ih hid
      exact ⟨⟨v, List.mem_cons_of_mem _ hv, hr⟩, hne⟩
  | empty _ _ _ ih =>
    obtain ⟨⟨v, hv, hr⟩, hne⟩ := ih hid
    exact ⟨⟨v, List.mem_cons_of_mem _ hv, hr⟩, hne⟩
  | again _ _ _ ih =>
    obtain ⟨⟨v, hv, hr⟩, hne⟩ := ih hid
    exact ⟨⟨v, List.mem_cons_of_mem _ hv, hr⟩, hne⟩
  | @entered jd c _ _ _ hc h0 _ _ ihb ih =>
    rcases List.mem_cons.mp hid with rfl | hid
    · exact ⟨⟨_, List.mem_cons_self, .here⟩, c, hc, h0⟩
    · rcases List.mem_append.mp hid with hid | hid
      · obtain ⟨⟨v, hv, hr⟩, hne⟩ := ihb hid
        exact ⟨⟨_, List.mem_cons_self, .inside hc hv hr⟩, hne⟩
      · obtain ⟨⟨v, hv, hr⟩, hne⟩ := ih hid
        exact ⟨⟨v, List.mem_cons_of_mem _ hv, hr⟩, hne⟩

/-! ### What is marked -/

/-- The container has a mark. -/
def Marked (marks : Marks) (id : Ident) : Prop := ∃ index, marks.lookup id = some index

theorem Walks.marked_mono {sharing : Bool} (hw : Walks settings view sharing opened marks vs w marks')
    {id : Ident} (h : Marked marks id) : Marked marks' id := by
  obtain ⟨index, hm⟩ := h
  exact ⟨index, hw.lookup_mono hm⟩

theorem marked_marksInside_iff (opened : List Ident) (marks : Marks) (id jd : Ident) :
    Marked (marksInside true opened marks id) jd ↔ id = jd ∨ Marked marks jd := by
  rw [Marked, lookup_marksInside_true]
  by_cases h : id = jd
  · simp [h]
  · simp [h, Marked]

/-- **What is marked on the walk is what is entered.** -/
theorem Walks.marked_iff (hw : Walks settings view true opened marks vs w marks') (id : Ident) :
    Marked marks' id ↔ Marked marks id ∨ id ∈ w.enteredIds := by
  induction hw with
  | done => simp [Walk.enteredIds]
  | scalar _ _ ih => exact ih
  | refused _ _ ih => exact ih
  | tag _ _ ihp ih => rw [ih, ihp, Walk.enteredIds, List.mem_append, or_assoc]
  | empty _ _ _ ih => exact ih
  | again _ _ _ _ _ ih => exact ih
  | cyclic _ _ hoff _ _ _ => cases hoff
  | @entered _ _ jd _ _ _ _ _ _ _ _ _ _ _ ihb ih =>
    rw [ih, ihb, marked_marksInside_iff, Walk.enteredIds, List.mem_cons, List.mem_append, or_assoc,
      or_assoc, or_left_comm, eq_comm]

/-- **No container is entered twice**, nor one that was marked before. -/
theorem Walks.nodup_enteredIds (hw : Walks settings view true opened marks vs w marks') :
    w.enteredIds.Nodup ∧ ∀ id ∈ w.enteredIds, ¬ Marked marks id := by
  induction hw with
  | done => exact ⟨List.nodup_nil, fun id hid => absurd hid List.not_mem_nil⟩
  | scalar _ _ ih => exact ih
  | refused _ _ ih => exact ih
  | tag hp _ ihp ih =>
    obtain ⟨hnp, hmp⟩ := ihp
    obtain ⟨hnr, hmr⟩ := ih
    rw [Walk.enteredIds]
    refine ⟨List.nodup_append.mpr ⟨hnp, hnr, ?_⟩, ?_⟩
    · rintro id hid _ hjd rfl
      exact hmr id hjd ((hp.marked_iff id).mpr (.inr hid))
    · intro id hid
      rcases List.mem_append.mp hid with hid | hid
      · exact hmp id hid
      · exact fun hm => hmr id hid (hp.marked_mono hm)
  | empty _ _ _ ih => exact ih
  | again _ _ _ _ _ ih => exact ih
  | cyclic _ _ hoff _ _ _ => cases hoff
  | @entered opened marks id _ _ _ _ _ _ _ _ hnew hb _ ihb ih =>
    obtain ⟨hnb, hmb⟩ := ihb
    obtain ⟨hnr, hmr⟩ := ih
    have hself : Marked (marksInside true opened marks id) id :=
      (marked_marksInside_iff ..).mpr (.inl rfl)
    have hbefore : ∀ jd, Marked marks jd → Marked (marksInside true opened marks id) jd :=
      fun jd hm => (marked_marksInside_iff ..).mpr (.inr hm)
    rw [Walk.enteredIds]
    refine ⟨List.nodup_cons.mpr ⟨?_, List.nodup_append.mpr ⟨hnb, hnr, ?_⟩⟩, ?_⟩
    · intro hid
      rcases List.mem_append.mp hid with hid | hid
      · exact hmb id hid hself
      · exact hmr id hid (hb.marked_mono hself)
    · rintro jd hjd _ hkd rfl
      exact hmr jd hkd ((hb.marked_iff jd).mpr (.inr hjd))
    · intro jd hjd
      rcases List.mem_cons.mp hjd with rfl | hjd
      · rintro ⟨index, hm⟩
        rw [Enters, if_pos rfl, hm] at hnew
        cases hnew
      · rcases List.mem_append.mp hjd with hjd | hjd
        · exact fun hm => hmb jd hjd (hbefore jd hm)
        · exact fun hm => hmr jd hjd (hb.marked_mono (hbefore jd hm))

/-! ### Nothing is missed -/

/-- Under its tags the value is no container, or an empty one, or one that is marked. -/
def Covered (view : View) (marks : Marks) : Value → Prop
  | .tag _ v => Covered view marks v
  | .container id => view.Nonempty id → Marked marks id
  | _ => True

theorem Covered.mono {marks marks' : Marks} (h : ∀ id, Marked marks id → Marked marks' id) {v : Value}
    (hv : Covered view marks v) : Covered view marks' v := by
  induction v with
  | tag number v ih => exact ih hv
  | container id => exact fun hne => h id (hv hne)
  | _ => trivial

theorem covered_of_refusal {v : Value} {e : EncodeError} (h : view.refusal? settings v = some e)
    (marks : Marks) : Covered view marks v := by
  cases v with
  | tag number v => cases h
  | container id =>
    rintro ⟨c, hc, _⟩
    rw [refusal?_of_contents hc] at h
    cases h
  | _ => trivial

theorem covered_of_item {v : Value} {item : Item} (h : settings.item? v = some item) (marks : Marks) :
    Covered view marks v := by
  cases v with
  | tag number v => cases h
  | container id => cases h
  | _ => trivial

/-- **The values of a walk are covered at its end**, and so are those in the containers that it
enters. -/
theorem Walks.covered (hw : Walks settings view true opened marks vs w marks') :
    (∀ v ∈ vs, Covered view marks' v) ∧
      ∀ id ∈ w.enteredIds, ∀ c, view.contents? id = some c → ∀ v ∈ c.values, Covered view marks' v := by
  induction hw with
  | done => exact ⟨fun v hv => absurd hv List.not_mem_nil, fun id hid => absurd hid List.not_mem_nil⟩
  | scalar hv _ ih => exact ⟨List.forall_mem_cons.mpr ⟨covered_of_item hv _, ih.1⟩, ih.2⟩
  | refused hv _ ih => exact ⟨List.forall_mem_cons.mpr ⟨covered_of_refusal hv _, ih.1⟩, ih.2⟩
  | tag _ hrest ihp ih =>
    have hmono := fun jd (h : Marked _ jd) => hrest.marked_mono h
    refine ⟨List.forall_mem_cons.mpr ⟨(ihp.1 _ List.mem_cons_self).mono hmono, ih.1⟩, ?_⟩
    intro id hid c hc u hu
    rcases List.mem_append.mp hid with hid | hid
    · exact (ihp.2 id hid c hc u hu).mono hmono
    · exact ih.2 id hid c hc u hu
  | empty hc h0 _ ih =>
    refine ⟨List.forall_mem_cons.mpr ⟨?_, ih.1⟩, ih.2⟩
    rintro ⟨c', hc', h0'⟩
    rw [hc] at hc'
    cases hc'
    exact absurd h0 h0'
  | again _ _ _ hm hrest ih =>
    exact ⟨List.forall_mem_cons.mpr ⟨fun _ => hrest.marked_mono ⟨_, hm⟩, ih.1⟩, ih.2⟩
  | cyclic _ _ hoff _ _ _ => cases hoff
  | @entered opened marks id c _ _ _ _ _ hc _ _ hbody hrest ihb ih =>
    have hmono := fun jd (h : Marked _ jd) => hrest.marked_mono h
    have hself : Marked (marksInside true opened marks id) id :=
      (marked_marksInside_iff ..).mpr (.inl rfl)
    refine ⟨List.forall_mem_cons.mpr ⟨fun _ => hmono id (hbody.marked_mono hself), ih.1⟩, ?_⟩
    intro jd hjd c' hc' u hu
    rcases List.mem_cons.mp hjd with rfl | hjd
    · rw [hc] at hc'
      cases hc'
      exact (ihb.1 u hu).mono hmono
    · rcases List.mem_append.mp hjd with hjd | hjd
      · exact (ihb.2 jd hjd c' hc' u hu).mono hmono
      · exact ih.2 jd hjd c' hc' u hu

/-- **What a document enters is what can be reached** and is not empty. -/
theorem Walks.mem_enteredIds_iff {v : Value} (hw : Walks settings view true [] [] [v] w marks')
    (hok : w.refusals = []) (id : Ident) :
    id ∈ w.enteredIds ↔ view.Reaches v id ∧ view.Nonempty id := by
  constructor
  · intro hid
    obtain ⟨⟨u, hu, hr⟩, hne⟩ := (hw.visits hok).reaches hid
    rw [List.mem_singleton.mp hu] at hr
    exact ⟨hr, hne⟩
  · rintro ⟨hr, hne⟩
    obtain ⟨hvalues, hinside⟩ := hw.covered
    have hentered : ∀ jd, Marked marks' jd → jd ∈ w.enteredIds := by
      intro jd hm
      rcases (hw.marked_iff jd).mp hm with ⟨index, hm⟩ | hjd
      · cases hm
      · exact hjd
    -- Coverage goes along the path, since every container on it has something in it.
    have hpath : ∀ u jd, view.Reaches u jd → Covered view marks' u → view.Nonempty jd →
        jd ∈ w.enteredIds := by
      intro u jd hr
      induction hr with
      | here => exact fun hcov hne => hentered _ (hcov hne)
      | tag _ ih => exact ih
      | @inside kd c u jd hc hu _ ih =>
        intro hcov hne
        have hkd := hentered kd (hcov ⟨c, hc, Contents.length_ne_zero_of_mem hu⟩)
        exact ih (hinside kd hkd c hc u hu) hne
    exact hpath v id hr (hvalues v List.mem_cons_self) hne

end

/-! ### Documents -/

/-- **Every container is written in full once**, when it is first met, and under a tag. With
sharing on and no entries of the caller, what an encoding has written is one item, that of a
walk through the value. Each time a container that is not empty is met, it is written in full
if it was not met before; otherwise there is a reference, whose index is the number of
containers that were open when it was first met. Those that are entered are all that can be
reached and are not empty, each once. Empty containers are heads. -/
theorem encode_writes_each_once {o : Options} (ho : o.overrides = []) (hon : o.sharing = true)
    {g : Graph} (hg : g.Sized) {v : Value} (hv : v.Sized) {sink : Sink} (hroom : sink.room = none)
    (hdone : (encode o g v sink).1 = .done) :
    ∃ w item, w.items true = [item] ∧ Visits o.toSettings g.view [v] w ∧
      (encode o g v sink).2.bytes = sink.bytes ++ item.wire o.compactFloats ∧
      (∀ preferred rest,
        Item.parse preferred (item.wire o.compactFloats ++ rest) = some (item, rest)) ∧
      (∀ before e after, w.encounters [] = before ++ e :: after →
        e.index? = Encounter.firstIndex? before e.id) ∧
      w.enteredIds.Nodup ∧
      (∀ id, id ∈ w.enteredIds ↔ g.view.Reaches v id ∧ g.view.Nonempty id) ∧
      (Item.array []).wire o.compactFloats = [0x80] ∧ (Item.map []).wire o.compactFloats = [0xA0] := by
  obtain ⟨w, marks, item, hw, hok, hitem, hfits, hbytes⟩ := encode_item ho hg hv hroom hdone
  rw [hon] at hw hitem
  refine ⟨w, item, hitem, hw.visits hok, hbytes, ?_, ?_, hw.nodup_enteredIds.1,
    hw.mem_enteredIds_iff hok, rfl, rfl⟩
  · intro preferred rest
    exact Item.parse_wire preferred _ hfits rest
  · intro before e after h
    exact hw.index_of_encounter h

/-- An array with the same map in it twice, itself, and an empty array; the map leads back to
the array. -/
theorem encode_twice_and_back :
    let g : Graph := ⟨#[.array [.container (.stored 1), .container (.stored 1), .container (.stored 0),
      .container (.stored 2)], .map [(.integer 1, .container (.stored 0))], .array []]⟩
    let v : Value := .container (.stored 0)
    let bs : Bytes := [0xD8, 28, 0x84, 0xD8, 28, 0xA1, 1, 0xD8, 29, 0, 0xD8, 29, 1, 0xD8, 29, 0, 0x80]
    ({ sharing := true } : Options).overrides = [] ∧ ({ sharing := true } : Options).sharing = true ∧
      g.Sized ∧ v.Sized ∧ Sink.unlimited.room = none ∧
      (encode { sharing := true } g v .unlimited).1 = .done ∧
      (encode { sharing := true } g v .unlimited).2.bytes = bs ∧
      ∃ (w : Walk) (item : Item), w.items true = [item] ∧ Item.parse true bs = some (item, []) ∧
        w.enteredIds.Nodup ∧ .stored 1 ∈ w.enteredIds ∧ .stored 2 ∉ w.enteredIds := by
  intro g v bs
  have hsized : g.Sized := by decide
  have hv : v.Sized := trivial
  have hroom : Sink.unlimited.room = none := rfl
  have hmap : Walks {} g.view true [.stored 0] [(.stored 0, 0)] [.container (.stored 1),
      .container (.stored 1), .container (.stored 0), .container (.stored 2)]
      (.entered (.stored 1) _ (.scalar _ (.again (.stored 0) 0 .done))
        (.again (.stored 1) 1 (.again (.stored 0) 0 (.empty _ .done)))) _ :=
    .entered (c := .entries _) rfl (by decide) rfl
      (.scalar rfl (.again (c := .items _) rfl (by decide) rfl rfl .done))
      (.again (c := .entries _) rfl (by decide) rfl rfl (.again (c := .items _) rfl (by decide) rfl rfl
        (.empty (c := .items _) rfl rfl .done)))
  have hw : Walks {} g.view true [] [] [v] _ _ :=
    .entered (c := .items _) rfl (by decide) rfl hmap .done
  obtain ⟨hdone, hwritten⟩ := encode_of_walks (o := { sharing := true }) rfl hw rfl hroom
  obtain ⟨w, item, hitem, _, hbytes, hparse, _, hnodup, hentered, _⟩ :=
    encode_writes_each_once (o := { sharing := true }) rfl rfl hsized hv hroom hdone
  have hwire : item.wire false = bs := by
    rw [hwritten] at hbytes
    exact (List.append_cancel_left hbytes).symm
  have hread := hparse true []
  rw [hwire] at hread
  refine ⟨rfl, rfl, hsized, hv, rfl, hdone, hwritten, w, item, hitem, hread, hnodup, ?_, ?_⟩
  · exact (hentered _).mpr ⟨.inside (c := .items _) rfl List.mem_cons_self .here,
      .entries _, rfl, by decide⟩
  · intro hmem
    obtain ⟨_, c, hc, h0⟩ := (hentered _).mp hmem
    cases hc
    exact h0 rfl

end CborGraph
