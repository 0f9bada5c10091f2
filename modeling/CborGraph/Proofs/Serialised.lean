import CborGraph.Proofs.Planting
import CborGraph.Proofs.WalkItem

/-!
# Encoding serialised data

Data that was placed in a graph is a tree, so a walk through it meets every container once. With
sharing on each that is not empty is marked and none is referred to, and with sharing off none is
open when it is met: `Trees.exists_walk`. The rest is that walks tell what is written.

Main statements: `Data.encode_eq_item`, the bytes of data are those of its item, or what goes wrong
first ends the run, and `Data.toValue_tree`, data that was placed is a tree of new containers and is
always written, with a mark for each array and map that is not empty if sharing is on.
-/

namespace CborGraph

/-! ### Walks -/

section

variable {sharing : Bool} {opened : List Ident} {marks : Marks} {id jd : Ident}

/-- A container that is neither open nor marked is entered. -/
theorem Enters.of_new (hopened : id ∉ opened) (hmarks : marks.lookup id = none) :
    Enters sharing opened marks id := by
  cases sharing with
  | true => exact hmarks
  | false => exact hopened

/-- Other containers are marked inside one as they are outside. -/
theorem lookup_marksInside_of_ne (hne : jd ≠ id) :
    (marksInside sharing opened marks id).lookup jd = marks.lookup jd := by
  cases sharing with
  | true => rw [lookup_marksInside_true, if_neg hne.symm]
  | false => rfl

end

/-- **A walk through trees enters every container that is not empty**, if their places are different
and none of these containers is open or marked. -/
theorem Trees.exists_walk {settings : Settings} {view : View} (sharing : Bool) {vs : List Value}
    {items : List Item} {places : List Nat} (h : Trees settings view vs items places)
    {opened : List Ident} {marks : Marks} (hnodup : places.Nodup)
    (hopened : ∀ place ∈ places, .stored place ∉ opened)
    (hmarks : ∀ place ∈ places, marks.lookup (.stored place) = none) :
    ∃ w marks', Walks settings view sharing opened marks vs w marks' ∧ w.refusals = [] ∧
      w.items sharing = items.map (Item.shown sharing) ∧
      ∀ place ∉ places, marks'.lookup (.stored place) = marks.lookup (.stored place) := by
  induction h generalizing opened marks with
  | nil => exact ⟨.done, marks, .done, rfl, rfl, fun _ _ => rfl⟩
  | @scalar v item vs items places hv hflat _ ih =>
    obtain ⟨w, marks', hw, hok, hitems, hlookup⟩ := ih hnodup hopened hmarks
    refine ⟨.scalar item w, marks', .scalar hv hw, hok, ?_, hlookup⟩
    rw [Walk.items, hitems, List.map_cons, Item.shown_of_isFlat hflat]
  | @container place c parts inner vs items places hc hparts _ ihp ih =>
    rw [List.nodup_cons, List.mem_append, not_or] at hnodup
    obtain ⟨⟨hinner, hplaces⟩, hnodup⟩ := hnodup
    obtain ⟨hnodupInner, hnodupRest, hdisjoint⟩ := List.nodup_append.mp hnodup
    rw [List.forall_mem_cons, List.forall_mem_append] at hopened hmarks
    obtain ⟨hopenedHere, hopenedInner, hopenedRest⟩ := hopened
    obtain ⟨hmarksHere, hmarksInner, hmarksRest⟩ := hmarks
    by_cases h0 : c.length = 0
    · obtain ⟨w, marks', hw, hok, hitems, hlookup⟩ := ih hnodupRest hopenedRest hmarksRest
      have hvalues := c.values_eq_nil_iff.mpr h0
      rw [hvalues] at hparts
      cases hparts
      refine ⟨.empty c w, marks', .empty hc h0 hw, hok, ?_, fun p hp => hlookup p fun h => hp ?_⟩
      · rw [Walk.items, hitems, List.map_cons, Contents.shown_empty h0]
      · exact List.mem_cons_of_mem _ h
    · have henters : Enters sharing opened marks (.stored place) := .of_new hopenedHere hmarksHere
      have hinside : ∀ p ≠ place,
          (marksInside sharing opened marks (.stored place)).lookup (.stored p) =
            marks.lookup (.stored p) :=
        fun p hp => lookup_marksInside_of_ne fun h => hp (Ident.stored.inj h)
      have hopenedBody : ∀ p ∈ inner, .stored p ∉ Ident.stored place :: opened := by
        intro p hp hmem
        rcases List.mem_cons.mp hmem with h | h
        · exact hinner (Ident.stored.inj h ▸ hp)
        · exact hopenedInner p hp h
      have hmarksBody : ∀ p ∈ inner,
          (marksInside sharing opened marks (.stored place)).lookup (.stored p) = none := by
        intro p hp
        rw [hinside p fun h => hinner (h ▸ hp)]
        exact hmarksInner p hp
      obtain ⟨body, marks₁, hbody, hokBody, hitemsBody, hlookupBody⟩ :=
        ihp hnodupInner hopenedBody hmarksBody
      have hmarksAfter : ∀ p ∈ places, marks₁.lookup (.stored p) = none := by
        intro p hp
        rw [hlookupBody p fun h => hdisjoint p h p hp rfl, hinside p fun h => hplaces (h ▸ hp)]
        exact hmarksRest p hp
      obtain ⟨w, marks', hw, hok, hitems, hlookup⟩ := ih hnodupRest hopenedRest hmarksAfter
      refine ⟨.entered (.stored place) c body w, marks', .entered hc h0 henters hbody hw, ?_, ?_,
        ?_⟩
      · rw [Walk.refusals, hokBody, hok]
        rfl
      · rw [Walk.items, hitemsBody, hitems, List.map_cons,
          Contents.shown_entered hparts.length_eq h0]
      · intro p hp
        rw [List.mem_cons, List.mem_append, not_or, not_or] at hp
        obtain ⟨hne, hpInner, hpPlaces⟩ := hp
        rw [hlookup p hpPlaces, hlookupBody p hpInner, hinside p hne]

/-- A value that was planted is written as its item, always. -/
theorem Planted.encode {o : Options} (ho : o.overrides = []) {g g' : Graph} {v : Value}
    {item : Item} (h : Planted o.toSettings g g' [v] [item]) (sink : Sink) (hroom : sink.room = none) :
    (CborGraph.encode o g' v sink).1 = .done ∧ (CborGraph.encode o g' v sink).2.bytes =
      sink.bytes ++ (item.shown o.sharing).wire o.compactFloats := by
  obtain ⟨_, places, htrees, hnodup, _⟩ := h
  have hopened : ∀ place ∈ places, .stored place ∉ ([] : List Ident) := fun _ _ => List.not_mem_nil
  have hmarks : ∀ place ∈ places, ([] : Marks).lookup (.stored place) = none := fun _ _ => rfl
  obtain ⟨w, marks, hw, hok, hitems, _⟩ := htrees.exists_walk o.sharing hnodup hopened hmarks
  have hencode := encode_of_walks ho hw hok hroom
  rwa [hitems, List.map_singleton, Item.wireAll_singleton] at hencode

/-! ### Data -/

namespace Data

variable {layout : Layout} {d : Data} {g : Graph}

/-- Data is placed if nothing goes wrong. -/
theorem exists_toValue (settings : Settings) (h : d.faults layout = []) (g : Graph) :
    ∃ v g', d.toValue layout g = .ok (v, g') ∧ Planted settings g g' [v] [d.item] := by
  have hplaced := placed_toValue settings layout d g
  rw [faults] at h
  rwa [Placed, h] at hplaced

/-- Data is not placed if something goes wrong, and it is the first that ends it. -/
theorem toValue_of_faults {fault : Fault} {rest : List Fault} (h : d.faults layout = fault :: rest)
    (g : Graph) : d.toValue layout g = .error fault := by
  have hplaced := placed_toValue {} layout d g
  rw [faults] at h
  rwa [Placed, h] at hplaced

/-- Data that was placed is planted. -/
theorem planted_of_toValue (settings : Settings) {v : Value} {g' : Graph}
    (h : d.toValue layout g = .ok (v, g')) : Planted settings g g' [v] [d.item] := by
  cases hfaults : d.faults layout with
  | nil =>
    obtain ⟨_, _, h', hplanted⟩ := exists_toValue settings hfaults g
    cases h.symm.trans h'
    exact hplanted
  | cons fault rest => cases h.symm.trans (toValue_of_faults hfaults g)

/-- **The bytes of data are those of its item.** If nothing goes wrong, encoding data with options as
they are by default succeeds, and what is written is the item that is read off the calls. Else what
goes wrong first, in the order of the calls, ends the run, and nothing is written: an error is
returned, but if more room was to be made than a list can have there is no outcome. If there is room
for as many elements as were announced, wherever they are, then only errors go wrong, however many
elements come. -/
theorem encode_eq_item (layout : Layout) (d : Data) (compact : Bool) :
    let o : Options := { compactFloats := compact }
    (match d.faults layout with
    | [] => d.encodeToBytes layout o = Option.some (.ok (d.item.wire compact)) ∧
        ∀ refusal journal, (d.encode layout o ⟨Option.none, refusal, journal⟩).1 = Option.some .done ∧
          (d.encode layout o ⟨Option.none, refusal, journal⟩).2.bytes =
            journal.reverse.flatMap Event.bytes ++ d.item.wire compact
    | .error e :: _ => d.encodeToBytes layout o = Option.some (.error (.error e)) ∧
        ∀ sink, d.encode layout o sink = (Option.some (.failed e), sink)
    | .capacityOverflow :: _ => d.encodeToBytes layout o = Option.some (.error .capacityOverflow) ∧
        ∀ sink, d.encode layout o sink = (Option.none, sink)) ∧
    ((∀ size ∈ d.requests layout, size ≤ mostBytes) → d.faults layout = d.errors.map .error) := by
  intro o
  refine ⟨?_, faults_of_requests⟩
  cases hfaults : d.faults layout with
  | nil =>
    obtain ⟨v, g, hvalue, hplanted⟩ := exists_toValue o.toSettings hfaults .empty
    have hencode := hplanted.encode (o := o) rfl
    refine ⟨?_, fun refusal journal => ?_⟩
    · have hbytes : CborGraph.encodeToBytes o g v = Option.some (.ok (d.item.wire compact)) :=
        encodeToBytes_eq_some_ok_iff.mpr (hencode .unlimited rfl)
      rw [Data.encodeToBytes, hvalue]
      simp only [hbytes]
      rfl
    · obtain ⟨hdone, hbytes⟩ := hencode ⟨Option.none, refusal, journal⟩ rfl
      rw [Data.encode, hvalue]
      -- Each part is rewritten by name, so that the run itself is not evaluated.
      refine ⟨?_, ?_⟩
      · rw [Prod.map_fst, hdone]
      · rw [Prod.map_snd, id]
        exact hbytes
  | cons fault rest =>
    have hvalue := toValue_of_faults hfaults .empty
    cases fault with
    | error e =>
      refine ⟨?_, fun sink => ?_⟩
      · rw [Data.encodeToBytes, hvalue]
      · rw [Data.encode, hvalue]
    | capacityOverflow =>
      refine ⟨?_, fun sink => ?_⟩
      · rw [Data.encodeToBytes, hvalue]
      · rw [Data.encode, hvalue]

/-- Nine items are announced and two come, a tuple of three has one. In a later tuple the error comes
before a length for which there is no room. -/
theorem encode_eq_item_announced_wrongly :
    let layout : Layout := ⟨48, 96, by decide, by decide⟩
    let o : Options := { compactFloats := false }
    let d : Data := .seq (Option.some 9) [.unit, .tuple 3 [.bool true]]
    let late : Data := .tuple 2 [.refused "no", .seq (Option.some 0xFFFFFFFFFFFFFFFF) []]
    (∀ size ∈ d.requests layout, size ≤ mostBytes) ∧ d.errors = [] ∧
      d.encodeToBytes layout o = Option.some (.ok [0x82, 0xF6, 0x81, 0xF5]) ∧
      late.faults layout = [.error (.serialization "no"), .capacityOverflow] ∧
      ∀ sink, late.encode layout o sink = (Option.some (.failed (.serialization "no")), sink) := by
  intro layout o d late
  have hroom : ∀ size ∈ d.requests layout, size ≤ mostBytes := by decide
  have hfaults : d.faults layout = [] := (encode_eq_item layout d false).2 hroom
  have hlate : late.faults layout = [.error (.serialization "no"), .capacityOverflow] := by decide
  have hwritten := (encode_eq_item layout d false).1
  have hrefused := (encode_eq_item layout late false).1
  rw [hfaults] at hwritten
  rw [hlate] at hrefused
  exact ⟨hroom, rfl, hwritten.1.trans (by decide), hlate, hrefused.2⟩

/-- An empty sequence for which the greatest of all lengths is announced has no bytes, however little
room an item takes, though there is no error in it. -/
theorem encodeToBytes_greatest_announced :
    let d : Data := .seq (Option.some 0xFFFFFFFFFFFFFFFF) []
    d.errors = [] ∧ ∀ (layout : Layout) (compact : Bool),
      let r := d.encodeToBytes layout { compactFloats := compact }
      d.item.wire compact = [0x80] ∧ r ≠ Option.some (.ok [0x80]) ∧
        r = Option.some (.error .capacityOverflow) := by
  intro d
  refine ⟨rfl, fun layout compact => ?_⟩
  have hroom : ¬layout.item * (0xFFFFFFFFFFFFFFFF : UInt64).toNat ≤ mostBytes := by
    have hpos := layout.item_pos
    rw [show (0xFFFFFFFFFFFFFFFF : UInt64).toNat = 2 ^ 64 - 1 from rfl, mostBytes]
    omega
  have hfault : (Hazard.items 0xFFFFFFFFFFFFFFFF).fault? layout = Option.some .capacityOverflow :=
    if_neg hroom
  have hvalue := toValue_of_faults (List.filterMap_cons_some hfault) .empty (d := d)
  have hbytes : d.encodeToBytes layout { compactFloats := compact } =
      Option.some (.error .capacityOverflow) := by
    rw [Data.encodeToBytes, hvalue]
  exact ⟨rfl, by rw [hbytes]; nofun, hbytes⟩

/-- The value of an entry that has no key is not looked at, so it is the missing key that is told. -/
example (layout : Layout) (compact : Bool) :
    (Data.map Option.none [.key (.text "k"), .value .unit, .value (.refused "late")]).encodeToBytes
      layout { compactFloats := compact } = Option.some (.error (.error keyMissing)) := rfl

/-- **Data that was placed is a tree of new containers, and is always written.** The containers of
its value are new in the graph and each is led to once; those that were there are left as they
were. So without entries of the caller, with any settings and with a sink that has no limit,
encoding the value succeeds. With sharing off the item of the data is written, with sharing on the
same item with a mark before each array and map that is not empty, and no reference. -/
theorem toValue_tree {v : Value} {g' : Graph} (h : d.toValue layout g = .ok (v, g')) {o : Options}
    (ho : o.overrides = []) {sink : Sink} (hroom : sink.room = Option.none) :
    (∃ places, Trees o.toSettings g'.view [v] [d.item] places ∧ places.Nodup ∧
        ∀ place ∈ places, g.cells.size ≤ place ∧ place < g'.cells.size) ∧
      (∀ place < g.cells.size, g'.cells[place]? = g.cells[place]?) ∧
      (CborGraph.encode { o with sharing := false } g' v sink).1 = .done ∧
      (CborGraph.encode { o with sharing := false } g' v sink).2.bytes =
        sink.bytes ++ d.item.wire o.compactFloats ∧
      (CborGraph.encode { o with sharing := true } g' v sink).1 = .done ∧
      (CborGraph.encode { o with sharing := true } g' v sink).2.bytes =
        sink.bytes ++ d.item.marked.wire o.compactFloats ∧
      d.item.marked.refers = false := by
  have hplanted := planted_of_toValue o.toSettings h
  obtain ⟨hoff, hoffBytes⟩ := hplanted.encode (o := { o with sharing := false }) ho sink hroom
  obtain ⟨hon, honBytes⟩ := hplanted.encode (o := { o with sharing := true }) ho sink hroom
  obtain ⟨hgrows, places, htrees, hnodup, hnew⟩ := hplanted
  have hrefers := htrees.refers
  rw [List.any_cons, List.any_nil, Bool.or_false] at hrefers
  exact ⟨⟨places, htrees, hnodup, hnew⟩, fun _ hp => hgrows.getElem? hp, hoff, hoffBytes, hon,
    honBytes, (Item.refers_marked _).trans hrefers⟩

/-- A variant with three fields, one of which is skipped, is placed beside an array. The length of a
sequence was announced wrongly, and the first key of a map gets no value. -/
theorem toValue_tree_variant :
    let layout : Layout := ⟨48, 96, by decide, by decide⟩
    let d : Data := .structVariant "V" 3 [
      ("a", Option.some (.seq (Option.some 9) [.integer 1, .seq Option.none []])),
      ("b", Option.none),
      ("c", Option.some (.map Option.none
        [.key (.text "x"), .key (.tuple 1 [.unit]), .value (.bool true)]))]
    let g : Graph := ⟨#[.array [.null]]⟩
    let r := d.toValue layout g
    ∃ v g', r = .ok (v, g') ∧ ({} : Options).overrides = [] ∧ Sink.unlimited.room = Option.none ∧
      v = .container (.stored 6) ∧ g'.cells[0]? = g.cells[0]? ∧
      (CborGraph.encode { sharing := false } g' v .unlimited).2.bytes =
        [0xA1, 0x61, 86, 0xA2, 0x61, 97, 0x82, 1, 0x80, 0x61, 99, 0xA1, 0x81, 0xF6, 0xF5] ∧
      (CborGraph.encode { sharing := true } g' v .unlimited).2.bytes =
        [0xD8, 28, 0xA1, 0x61, 86, 0xD8, 28, 0xA2, 0x61, 97, 0xD8, 28, 0x82, 1, 0x80, 0x61, 99,
          0xD8, 28, 0xA1, 0xD8, 28, 0x81, 0xF6, 0xF5] := by
  intro layout d g r
  have hoff : d.item.wire false =
      [0xA1, 0x61, 86, 0xA2, 0x61, 97, 0x82, 1, 0x80, 0x61, 99, 0xA1, 0x81, 0xF6, 0xF5] := by
    decide +kernel
  have hon : d.item.marked.wire false =
      [0xD8, 28, 0xA1, 0x61, 86, 0xD8, 28, 0xA2, 0x61, 97, 0xD8, 28, 0x82, 1, 0x80, 0x61, 99,
        0xD8, 28, 0xA1, 0xD8, 28, 0x81, 0xF6, 0xF5] := by
    decide +kernel
  obtain ⟨g', hr⟩ : ∃ g', r = .ok (.container (.stored 6), g') := ⟨_, rfl⟩
  obtain ⟨_, hkept, _, hoffBytes, _, honBytes, _⟩ :=
    toValue_tree hr (o := {}) rfl (show Sink.unlimited.room = Option.none from rfl)
  exact ⟨_, g', hr, rfl, rfl, rfl, hkept 0 Nat.zero_lt_one, hoffBytes.trans hoff, honBytes.trans hon⟩

end Data

end CborGraph
