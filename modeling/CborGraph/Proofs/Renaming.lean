import CborGraph.Proofs.FullSink
import CborGraph.Proofs.WalkRun
import Mathlib.Logic.Relator

/-!
# Other identities

What is written of a container is what is in it, not which identity it has. Two views may name
their containers differently, and one may keep as an array what the other keeps as a value of the
caller's own that can be read as a sequence. If the containers of one correspond to those of the
other one to one, and corresponding containers are read as the same but for the identities in them,
then walks take the same steps through corresponding values: the same containers are open and
marked, each under its own name.

Main statement: `Encoder.encode_renamed`, for every sink and wherever the numbers of new containers
begin.
-/

namespace CborGraph

/-! ### Correspondence -/

/-- The value is neither a tag nor a reference. -/
def Value.isLeaf : Value → Bool
  | .tag _ _ => false
  | .container _ => false
  | _ => true

section

variable (rel : Ident → Ident → Prop)

/-- The values are the same, but for containers that correspond by `rel`. -/
inductive Value.Corresponds : Value → Value → Prop
  /-- A leaf corresponds to itself. -/
  | leaf {v} (hv : v.isLeaf = true) : Corresponds v v
  /-- Tags with one number around values that correspond. -/
  | tag {number v v'} (h : Corresponds v v') : Corresponds (.tag number v) (.tag number v')
  /-- References to containers that correspond. -/
  | container {id id'} (h : rel id id') : Corresponds (.container id) (.container id')

/-- Sequences or mappings of one length, in which value by value corresponds. -/
inductive Contents.Corresponds : Contents → Contents → Prop
  /-- Sequences. -/
  | items {vs vs'} (h : List.Forall₂ (Value.Corresponds rel) vs vs') :
    Corresponds (.items vs) (.items vs')
  /-- Mappings. -/
  | entries {es es' : List (Value × Value)}
    (h : List.Forall₂ (fun e e' => e.1.Corresponds rel e'.1 ∧ e.2.Corresponds rel e'.2) es es') :
    Corresponds (.entries es) (.entries es')

/-- The containers are read as the same, whether they are built in or of the caller's own. If they
cannot be read they are of one type. -/
inductive Cell.Corresponds : Cell → Cell → Prop
  /-- Containers that can be read. -/
  | read {cell cell' c c'} (hc : cell.contents? = some c) (hc' : cell'.contents? = some c')
    (h : c.Corresponds rel c') : Corresponds cell cell'
  /-- Values of the caller's own that have no view. -/
  | unread {cu cu' : Custom} (hc : (Cell.custom cu).contents? = none)
    (hc' : (Cell.custom cu').contents? = none) (hname : cu'.typeName = cu.typeName) :
    Corresponds (.custom cu) (.custom cu')

/-- Containers of the two views correspond one to one, and so does what is in them. -/
structure View.Renamed (view view' : View) : Prop where
  one_to_one : Relator.BiUnique rel
  cells : ∀ {id id'}, rel id id' → (view.cell id).Corresponds rel (view'.cell id')

/-- The marks are those of corresponding containers. -/
def Marks.Renamed (marks marks' : Marks) : Prop :=
  List.Forall₂ (fun m m' => rel m.1 m'.1 ∧ m'.2 = m.2) marks marks'

end

variable {rel : Ident → Ident → Prop} {settings : Settings} {view view' : View} {sharing : Bool}
variable {opened opened' : List Ident} {marks marks' marks₁ : Marks} {v v' : Value} {id id' : Ident}
variable {vs vs' : List Value} {c c' : Contents} {w : Walk}

/-- Values in order correspond. -/
abbrev Values.Correspond (rel : Ident → Ident → Prop) (vs vs' : List Value) : Prop :=
  List.Forall₂ (Value.Corresponds rel) vs vs'

/-! ### Values that correspond -/

namespace Value.Corresponds

/-- A value that has an item of its own corresponds to itself only. -/
theorem eq_of_item (h : v.Corresponds rel v') {item : Item} (hv : settings.item? v = some item) :
    v' = v := by
  cases h with
  | leaf _ => rfl
  | tag _ => cases hv
  | container _ => cases hv

end Value.Corresponds

namespace Contents.Corresponds

variable (h : c.Corresponds rel c')

include h

theorem major_eq : c'.major = c.major := by cases h <;> rfl

theorem length_eq : c'.length = c.length := by
  cases h with
  | items h => exact h.length_eq.symm
  | entries h => exact h.length_eq.symm

theorem values : Values.Correspond rel c.values c'.values := by
  cases h with
  | items h => exact h
  | entries h =>
    induction h with
    | nil => exact .nil
    | cons he _ ih => exact .cons he.1 (.cons he.2 ih)

end Contents.Corresponds

namespace Cell.Corresponds

variable {cell cell' : Cell}

/-- A container that can be read corresponds to one that is read as the same. -/
theorem exists_contents (h : cell.Corresponds rel cell') (hc : cell.contents? = some c) :
    ∃ c', cell'.contents? = some c' ∧ c.Corresponds rel c' := by
  cases h with
  | read hc₁ hc' hcc =>
    rw [hc] at hc₁
    cases hc₁
    exact ⟨_, hc', hcc⟩
  | unread hc₁ _ _ =>
    rw [hc₁] at hc
    cases hc

/-- A container that cannot be read corresponds to one of the same type that cannot be read. -/
theorem exists_custom (h : cell.Corresponds rel cell') (hc : cell.contents? = none) :
    ∃ cu cu', cell = .custom cu ∧ cell' = .custom cu' ∧ cell'.contents? = none ∧
      cu'.typeName = cu.typeName := by
  cases h with
  | read hc₁ _ _ =>
    rw [hc] at hc₁
    cases hc₁
  | @unread cu cu' _ hc' hname => exact ⟨cu, cu', rfl, rfl, hc', hname⟩

end Cell.Corresponds

/-- The name of the type of a value of the caller's own. -/
theorem View.typeName_custom {cu : Custom} (h : view.cell id = .custom cu) :
    view.typeName (.container id) = cu.typeName := by
  simp [View.typeName, View.kind?, View.custom?, View.cell?, h, Cell.kind?]

namespace View.Renamed

variable (h : view.Renamed rel view')

include h

/-- What corresponds to a container that can be read is a container that is read as the same. -/
theorem exists_container (hv : Value.Corresponds rel (.container id) v')
    (hc : view.contents? id = some c) :
    ∃ id' c', v' = .container id' ∧ rel id id' ∧ view'.contents? id' = some c' ∧
      c.Corresponds rel c' := by
  cases hv with
  | leaf hv => cases hv
  | container hid =>
    obtain ⟨c', hc', hcc⟩ := (h.cells hid).exists_contents hc
    exact ⟨_, c', rfl, hid, hc', hcc⟩

/-- Values that correspond are refused for the same reason. -/
theorem refusal? (hv : v.Corresponds rel v') {e : EncodeError}
    (he : view.refusal? settings v = some e) : view'.refusal? settings v' = some e := by
  cases hv with
  | leaf hv =>
    cases v with
    | naiveDateTime t => exact he
    | container id => cases hv
    | _ => cases he
  | tag _ => cases he
  | container hid =>
    rw [View.refusal?] at he ⊢
    split at he
    · next hc =>
      obtain ⟨cu, cu', hcu, hcu', hc', hname⟩ := (h.cells hid).exists_custom hc
      have hnone : view'.contents? _ = none := hc'
      rw [View.typeName_custom hcu, ← hname] at he
      rw [if_pos hnone, View.typeName_custom hcu']
      exact he
    · cases he

/-! ### Marks and open containers -/

theorem mem_iff (ho : List.Forall₂ rel opened opened') (hid : rel id id') :
    id' ∈ opened' ↔ id ∈ opened := by
  induction ho with
  | nil => simp
  | @cons jd jd' opened opened' hjd _ ih =>
    have heq : id = jd ↔ id' = jd' := Relator.rel_eq h.one_to_one hid hjd
    rw [List.mem_cons, List.mem_cons, ih, heq]

theorem lookup_eq (hm : Marks.Renamed rel marks marks') (hid : rel id id') :
    marks'.lookup id' = marks.lookup id := by
  induction hm with
  | nil => rfl
  | @cons m m' marks marks' hm _ ih =>
    obtain ⟨jd, index⟩ := m
    obtain ⟨jd', index'⟩ := m'
    obtain ⟨hjd, rfl⟩ := hm
    rw [List.lookup_cons, List.lookup_cons, ih]
    have heq : id = jd ↔ id' = jd' := Relator.rel_eq h.one_to_one hid hjd
    by_cases hcase : id = jd
    · rw [beq_iff_eq.mpr hcase, beq_iff_eq.mpr (heq.mp hcase)]
    · rw [beq_eq_false_iff_ne.mpr hcase, beq_eq_false_iff_ne.mpr fun hc => hcase (heq.mpr hc)]

theorem enters (ho : List.Forall₂ rel opened opened') (hm : Marks.Renamed rel marks marks')
    (hid : rel id id') (he : Enters sharing opened marks id) :
    Enters sharing opened' marks' id' := by
  unfold Enters at he ⊢
  rw [h.lookup_eq hm hid, h.mem_iff ho hid]
  exact he

end View.Renamed

/-- A container is marked with the same number under each of its names. -/
theorem Marks.Renamed.inside (ho : List.Forall₂ rel opened opened')
    (hm : Marks.Renamed rel marks marks') (hid : rel id id') :
    Marks.Renamed rel (marksInside sharing opened marks id)
      (marksInside sharing opened' marks' id') := by
  unfold marksInside
  cases sharing with
  | false => exact hm
  | true => exact .cons ⟨hid, ho.length_eq.symm⟩ hm

/-! ### Walks -/

/-- **Through values that correspond a walk takes the same steps**, by induction on the walk. What
is open and marked corresponds all along. -/
theorem Walks.renamed (h : view.Renamed rel view')
    (hw : Walks settings view sharing opened marks vs w marks₁) :
    ∀ {opened' marks' vs'}, List.Forall₂ rel opened opened' → Marks.Renamed rel marks marks' →
      Values.Correspond rel vs vs' →
        ∃ w' marks₁', Walks settings view' sharing opened' marks' vs' w' marks₁' ∧
          Marks.Renamed rel marks₁ marks₁' ∧
          ∀ compact, w'.steps sharing compact = w.steps sharing compact := by
  induction hw with
  | done =>
    intro opened' marks' vs' _ hm hvs
    cases hvs
    exact ⟨_, _, .done, hm, fun _ => rfl⟩
  | scalar hv _ ih =>
    intro opened' marks' vs' ho hm hvs
    obtain ⟨v', vs', hv', hrest, rfl⟩ := List.forall₂_cons_left_iff.mp hvs
    obtain ⟨w', marks₁', hw', hm', hsteps⟩ := ih ho hm hrest
    obtain rfl := hv'.eq_of_item hv
    exact ⟨_, _, .scalar hv hw', hm', fun compact => by rw [Walk.steps, Walk.steps, hsteps]⟩
  | refused hv _ ih =>
    intro opened' marks' vs' ho hm hvs
    obtain ⟨v', vs', hv', hrest, rfl⟩ := List.forall₂_cons_left_iff.mp hvs
    obtain ⟨w', marks₁', hw', hm', hsteps⟩ := ih ho hm hrest
    exact ⟨_, _, .refused (h.refusal? hv' hv) hw', hm',
      fun compact => by rw [Walk.steps, Walk.steps, hsteps]⟩
  | tag _ _ ihp ih =>
    intro opened' marks' vs' ho hm hvs
    obtain ⟨v', vs', hv', hrest, rfl⟩ := List.forall₂_cons_left_iff.mp hvs
    cases hv' with
    | leaf hv' => cases hv'
    | tag hv' =>
      obtain ⟨payload', marks₁', hpayload, hm₁, hsteps₁⟩ := ihp ho hm (.cons hv' .nil)
      obtain ⟨w', marks₂', hw', hm₂, hsteps₂⟩ := ih ho hm₁ hrest
      exact ⟨_, _, .tag hpayload hw', hm₂,
        fun compact => by rw [Walk.steps, Walk.steps, hsteps₁, hsteps₂]⟩
  | empty hc h0 _ ih =>
    intro opened' marks' vs' ho hm hvs
    obtain ⟨v', vs', hv', hrest, rfl⟩ := List.forall₂_cons_left_iff.mp hvs
    obtain ⟨w', marks₁', hw', hm', hsteps⟩ := ih ho hm hrest
    obtain ⟨id', c', rfl, hid, hc', hcc⟩ := h.exists_container hv' hc
    exact ⟨_, _, .empty hc' (hcc.length_eq.trans h0) hw', hm',
      fun compact => by rw [Walk.steps, Walk.steps, hsteps, hcc.major_eq]⟩
  | again hc h0 hon hmark _ ih =>
    intro opened' marks' vs' ho hm hvs
    obtain ⟨v', vs', hv', hrest, rfl⟩ := List.forall₂_cons_left_iff.mp hvs
    obtain ⟨w', marks₁', hw', hm', hsteps⟩ := ih ho hm hrest
    obtain ⟨id', c', rfl, hid, hc', hcc⟩ := h.exists_container hv' hc
    have hmark' := (h.lookup_eq hm hid).trans hmark
    exact ⟨_, _, .again hc' (hcc.length_eq ▸ h0) hon hmark' hw', hm',
      fun compact => by rw [Walk.steps, Walk.steps, hsteps]⟩
  | cyclic hc h0 hoff hopen _ ih =>
    intro opened' marks' vs' ho hm hvs
    obtain ⟨v', vs', hv', hrest, rfl⟩ := List.forall₂_cons_left_iff.mp hvs
    obtain ⟨w', marks₁', hw', hm', hsteps⟩ := ih ho hm hrest
    obtain ⟨id', c', rfl, hid, hc', hcc⟩ := h.exists_container hv' hc
    have hopen' := (h.mem_iff ho hid).mpr hopen
    exact ⟨_, _, .cyclic hc' (hcc.length_eq ▸ h0) hoff hopen' hw', hm',
      fun compact => by rw [Walk.steps, Walk.steps, hsteps]⟩
  | entered hc h0 hnew _ _ ihb ih =>
    intro opened' marks' vs' ho hm hvs
    obtain ⟨v', vs', hv', hrest, rfl⟩ := List.forall₂_cons_left_iff.mp hvs
    obtain ⟨id', c', rfl, hid, hc', hcc⟩ := h.exists_container hv' hc
    obtain ⟨body', marks₁', hbody, hm₁, hsteps₁⟩ :=
      ihb (.cons hid ho) (hm.inside ho hid) hcc.values
    obtain ⟨w', marks₂', hw', hm₂, hsteps₂⟩ := ih ho hm₁ hrest
    have hnew' := h.enters ho hm hid hnew
    refine ⟨_, _, .entered hc' (hcc.length_eq ▸ h0) hnew' hbody hw', hm₂, fun compact => ?_⟩
    rw [Walk.steps, Walk.steps, hsteps₁, hsteps₂, hcc.major_eq, hcc.length_eq]

/-! ### Documents -/

namespace Encoder

/-- With a sink that has no limit, values that correspond are encoded as the same. -/
theorem encode_renamed_unlimited {o : Options} (ho : o.overrides = []) {g g' : Graph}
    (h : g.view.Renamed rel g'.view) (hv : v.Corresponds rel v') {sink : Sink}
    {next next' : Nat} {r r' : Outcome × Encoder} (hroom : sink.room = none)
    (hr : (ofOptions o sink next).encode g v = r)
    (hr' : (ofOptions o sink next').encode g' v' = r') :
    r'.1 = r.1 ∧ r'.2.state.sink.bytes = r.2.state.sink.bytes := by
  obtain ⟨w, marks, hw, hout, hbytes⟩ := encode_walk ho g v hroom next
  obtain ⟨u, _, hu, hout', hbytes'⟩ := encode_walk ho g' v' hroom next'
  obtain ⟨w', _, hw', _, hsteps⟩ := hw.renamed h .nil .nil (.cons hv .nil)
  obtain ⟨rfl, rfl⟩ := hu.unique hw'
  rw [hr] at hout hbytes
  rw [hr', hsteps] at hout' hbytes'
  exact ⟨hout'.trans hout.symm, hbytes'.trans hbytes.symm⟩

/-- **What is written does not depend on identities.** Let the containers of two graphs correspond
one to one, as far as `rel` goes, and let two values be the same but for such containers. Then
without functions of the caller, with sharing on or off, both values are encoded with the same
success or error, and the same bytes are written, into any sink and from wherever new containers are
numbered. An array may correspond to a value of the caller's own that can be read as a sequence
only, and a map to one that can be read as a mapping. -/
theorem encode_renamed {o : Options} (ho : o.overrides = []) {g g' : Graph}
    (h : g.view.Renamed rel g'.view) (hv : v.Corresponds rel v') (sink : Sink) (next next' : Nat) :
    let r := (ofOptions o sink next).encode g v
    let r' := (ofOptions o sink next').encode g' v'
    r'.1 = r.1 ∧ r'.2.state.sink.bytes = r.2.state.sink.bytes := by
  intro r r'
  -- The runs are given names, so that the limit of nesting is not counted down.
  obtain ⟨q, hq⟩ : ∃ q, (ofOptions o sink next).encode g v = q := ⟨_, rfl⟩
  obtain ⟨q', hq'⟩ : ∃ q', (ofOptions o sink next').encode g' v' = q' := ⟨_, rfl⟩
  rw [show r = q from hq, show r' = q' from hq']
  have hattempts : ∀ entry ∈ o.overrides, ∀ settings view v,
      Op.anyAttempts (entry.2 settings view v) = false := by
    simp [ho]
  exact encode_agree hattempts hattempts (encode_renamed_unlimited ho h hv) hq hq'

/-- An array that is in itself and a map, and two values of the caller's own that can be read as
these, one after a container that nothing leads to. A decimal in the map is written as a new
container. -/
theorem encode_renamed_views :
    let k : Value × Value := (.text "k", .decimal (.finite (.ofInt 15) (-1)))
    let items (id : Ident) : List Value := [.integer 1, .container (.stored 1), .container id]
    let g : Graph := ⟨#[.array (items (.stored 0)), .map [k]]⟩
    let g' : Graph := ⟨#[.map [(.null, .null)], .custom ⟨"record", [], some [.text "k"], some [k]⟩,
      .custom ⟨"list", [7], some (items (.stored 2)), none⟩]⟩
    let rel (id id' : Ident) : Prop :=
      id = .stored 0 ∧ id' = .stored 2 ∨ id = .stored 1 ∧ id' = .stored 1
    let r := (ofOptions { sharing := true } .unlimited 0).encode g (.container (.stored 0))
    let r' := (ofOptions { sharing := true } .unlimited 100).encode g' (.container (.stored 2))
    ({ sharing := true } : Options).overrides = [] ∧ g.view.Renamed rel g'.view ∧
      Value.Corresponds rel (.container (.stored 0)) (.container (.stored 2)) ∧
      r.1 = .done ∧ r.2.state.sink.bytes =
        [0xD8, 28, 0x83, 1, 0xD8, 28, 0xA1, 0x61, 0x6B, 0xC4, 0x82, 0x20, 15, 0xD8, 29, 0] ∧
      r'.1 = r.1 ∧ r'.2.state.sink.bytes = r.2.state.sink.bytes := by
  intro k items g g' rel r r'
  have hone : Relator.BiUnique rel := by
    constructor
    · rintro _ _ _ (⟨rfl, rfl⟩ | ⟨rfl, rfl⟩) (⟨rfl, h⟩ | ⟨rfl, h⟩) <;> first | rfl | cases h
    · rintro _ _ _ (⟨rfl, rfl⟩ | ⟨rfl, rfl⟩) (⟨h, rfl⟩ | ⟨h, rfl⟩) <;> first | rfl | cases h
  have hv : Value.Corresponds rel (.container (.stored 0)) (.container (.stored 2)) :=
    .container (.inl ⟨rfl, rfl⟩)
  have hmap : Value.Corresponds rel (.container (.stored 1)) (.container (.stored 1)) :=
    .container (.inr ⟨rfl, rfl⟩)
  have h : g.view.Renamed rel g'.view := by
    refine ⟨hone, ?_⟩
    rintro _ _ (⟨rfl, rfl⟩ | ⟨rfl, rfl⟩)
    · exact .read rfl rfl (.items (.cons (.leaf rfl) (.cons hmap (.cons hv .nil))))
    · exact .read rfl rfl (.entries (.cons ⟨.leaf rfl, .leaf rfl⟩ .nil))
  have hdone : r.1 = .done := by decide +kernel
  have hbytes : r.2.state.sink.bytes =
      [0xD8, 28, 0x83, 1, 0xD8, 28, 0xA1, 0x61, 0x6B, 0xC4, 0x82, 0x20, 15, 0xD8, 29, 0] := by
    decide +kernel
  obtain ⟨hout', hbytes'⟩ := encode_renamed (o := { sharing := true }) rfl h hv .unlimited 0 100
  exact ⟨rfl, h, hv, hdone, hbytes, hout', hbytes'⟩

end Encoder

end CborGraph
