import CborGraph.Proofs.DataItem
import CborGraph.Proofs.Magnitude

/-!
# Data in a graph

Data is placed in a graph as trees: every container of a sequence, a map or a structure is new, and
nothing else leads to it. `Trees` says of values which items they stand for and at which places
their containers are, and `Planted` that all of these are new and different.

Placing data succeeds or fails as it goes wrong or not, `Placed`; what goes wrong first ends it.

Main statement: `Data.placed_toValue`, and `Data.placed_toItems`, `Data.placed_toEntries` and
`Data.placed_toFields` with it, by induction on the data.
-/

namespace CborGraph

/-! ### Trees -/

/-- The values stand for the items, and their containers are at these places, outer ones first, each
as often as something leads to it. -/
inductive Trees (settings : Settings) (view : View) : List Value → List Item → List Nat → Prop
  /-- No value. -/
  | nil : Trees settings view [] [] []
  /-- A scalar. -/
  | scalar {v item vs items places} (hv : settings.item? v = some item) (hflat : item.isFlat = true)
      (h : Trees settings view vs items places) :
      Trees settings view (v :: vs) (item :: items) places
  /-- A container, and what is in it. -/
  | container {place c parts inner vs items places} (hc : view.contents? (.stored place) = some c)
      (hparts : Trees settings view c.values parts inner)
      (h : Trees settings view vs items places) :
      Trees settings view (.container (.stored place) :: vs) (c.item parts :: items)
        (place :: (inner ++ places))

namespace Trees

variable {settings : Settings} {view view' : View} {vs vs' : List Value} {items items' : List Item}
variable {places places' : List Nat}

/-- There is one item for each value. -/
theorem length_eq (h : Trees settings view vs items places) : items.length = vs.length := by
  induction h with
  | nil => rfl
  | scalar _ _ _ ih => rw [List.length_cons, List.length_cons, ih]
  | container _ _ _ _ ih => rw [List.length_cons, List.length_cons, ih]

theorem append (h : Trees settings view vs items places)
    (h' : Trees settings view vs' items' places') :
    Trees settings view (vs ++ vs') (items ++ items') (places ++ places') := by
  induction h with
  | nil => exact h'
  | scalar hv hflat _ ih => exact .scalar hv hflat ih
  | container hc hparts _ _ ih =>
    rw [List.cons_append, List.cons_append, List.cons_append, List.append_assoc]
    exact .container hc hparts ih

/-- Trees are the same in a view that has the same at their places. -/
theorem mono (h : Trees settings view vs items places)
    (hsame : ∀ place ∈ places, view'.cell (.stored place) = view.cell (.stored place)) :
    Trees settings view' vs items places := by
  induction h with
  | nil => exact .nil
  | scalar hv hflat _ ih => exact .scalar hv hflat (ih hsame)
  | container hc _ _ ihp ih =>
    rw [List.forall_mem_cons, List.forall_mem_append] at hsame
    obtain ⟨hhere, hinner, hrest⟩ := hsame
    refine .container ?_ (ihp hinner) (ih hrest)
    rw [View.contents?, hhere]
    exact hc

/-- There are no references in the items. -/
theorem refers (h : Trees settings view vs items places) : items.any Item.refers = false := by
  induction h with
  | nil => rfl
  | scalar _ hflat _ ih => rw [List.any_cons, Item.refers_of_isFlat hflat, ih]; rfl
  | container _ hparts _ ihp ih =>
    rw [List.any_cons, Contents.refers_item hparts.length_eq, ihp, ih]
    rfl

end Trees

/-! ### Graphs that grow -/

namespace Graph

/-- `g'` is `g` with more containers. -/
def Grows (g g' : Graph) : Prop := ∃ more : Array Cell, g'.cells = g.cells ++ more

namespace Grows

variable {g g' g'' : Graph}

theorem refl (g : Graph) : Grows g g := ⟨#[], by simp⟩

theorem trans (h : Grows g g') (h' : Grows g' g'') : Grows g g'' := by
  obtain ⟨more, hmore⟩ := h
  obtain ⟨more', hmore'⟩ := h'
  exact ⟨more ++ more', by rw [hmore', hmore, Array.append_assoc]⟩

theorem add (g : Graph) (c : Cell) : Grows g (g.add c).2 := ⟨#[c], by simp [Graph.add]⟩

theorem size_le (h : Grows g g') : g.cells.size ≤ g'.cells.size := by
  obtain ⟨more, hmore⟩ := h
  rw [hmore, Array.size_append]
  exact Nat.le_add_right _ _

/-- The containers that there were are left as they are. -/
theorem getElem? (h : Grows g g') {place : Nat} (hp : place < g.cells.size) :
    g'.cells[place]? = g.cells[place]? := by
  obtain ⟨more, hmore⟩ := h
  rw [hmore, Array.getElem?_append_left hp]

theorem cell (h : Grows g g') {place : Nat} (hp : place < g.cells.size) :
    g'.view.cell (.stored place) = g.view.cell (.stored place) := by
  simp only [view, h.getElem? hp]

end Grows

end Graph

/-- From `g` to `g'` containers were added, and in `g'` the values are trees with these items, whose
containers are all new and are each led to once. -/
def Planted (settings : Settings) (g g' : Graph) (vs : List Value) (items : List Item) : Prop :=
  g.Grows g' ∧ ∃ places, Trees settings g'.view vs items places ∧ places.Nodup ∧
    ∀ place ∈ places, g.cells.size ≤ place ∧ place < g'.cells.size

namespace Planted

variable {settings : Settings} {g g' g'' : Graph} {vs vs' : List Value} {items items' : List Item}

theorem length_eq (h : Planted settings g g' vs items) : items.length = vs.length := by
  obtain ⟨_, _, htrees, _⟩ := h
  exact htrees.length_eq

theorem nil (h : g.Grows g') : Planted settings g g' [] [] :=
  ⟨h, [], .nil, List.nodup_nil, by simp⟩

theorem scalar {v : Value} {item : Item} (hv : settings.item? v = some item)
    (hflat : item.isFlat = true) (h : Planted settings g g' vs items) :
    Planted settings g g' (v :: vs) (item :: items) := by
  obtain ⟨hgrows, places, htrees, hnodup, hnew⟩ := h
  exact ⟨hgrows, places, .scalar hv hflat htrees, hnodup, hnew⟩

/-- What was added later is new from before. -/
theorem earlier (hg : g.Grows g') (h : Planted settings g' g'' vs items) :
    Planted settings g g'' vs items := by
  obtain ⟨hgrows, places, htrees, hnodup, hnew⟩ := h
  exact ⟨hg.trans hgrows, places, htrees, hnodup,
    fun place hp => ⟨le_trans hg.size_le (hnew place hp).1, (hnew place hp).2⟩⟩

/-- What was added is there when more is added. -/
theorem append (h : Planted settings g g' vs items) (h' : Planted settings g' g'' vs' items') :
    Planted settings g g'' (vs ++ vs') (items ++ items') := by
  obtain ⟨hgrows, places, htrees, hnodup, hnew⟩ := h
  obtain ⟨hgrows', places', htrees', hnodup', hnew'⟩ := h'
  have hearlier := htrees.mono fun place hp => hgrows'.cell (hnew place hp).2
  refine ⟨hgrows.trans hgrows', places ++ places', hearlier.append htrees', ?_, ?_⟩
  · refine List.nodup_append.mpr ⟨hnodup, hnodup', fun place hp place' hp' => ?_⟩
    exact (lt_of_lt_of_le (hnew place hp).2 (hnew' place' hp').1).ne
  · intro place hp
    rcases List.mem_append.mp hp with hp | hp
    · exact ⟨(hnew place hp).1, lt_of_lt_of_le (hnew place hp).2 hgrows'.size_le⟩
    · exact ⟨le_trans hgrows.size_le (hnew' place hp).1, (hnew' place hp).2⟩

/-- **A container that is added** is new, and so is what is in it. -/
theorem add {cell : Cell} {c : Contents} (hc : cell.contents? = some c)
    (h : Planted settings g g' c.values items) :
    Planted settings g (g'.add cell).2 [.container (g'.add cell).1] [c.item items] := by
  obtain ⟨hgrows, places, htrees, hnodup, hnew⟩ := h
  have hadd := Graph.Grows.add g' cell
  have hin := htrees.mono fun place hp => hadd.cell (hnew place hp).2
  have hhere : (g'.add cell).2.view.contents? (.stored g'.cells.size) = some c := by
    rw [View.contents?, ← hc]
    exact congrArg _ (Graph.view_add g' cell)
  have hfresh : g'.cells.size ∉ places := fun hp => lt_irrefl _ (hnew _ hp).2
  refine ⟨hgrows.trans hadd, g'.cells.size :: (places ++ []), .container hhere hin .nil, ?_, ?_⟩
  · rw [List.append_nil]
    exact List.nodup_cons.mpr ⟨hfresh, hnodup⟩
  · rw [List.append_nil, List.forall_mem_cons]
    have hsize : (g'.add cell).2.cells.size = g'.cells.size + 1 := Array.size_push _
    rw [hsize]
    exact ⟨⟨hgrows.size_le, Nat.lt_succ_self _⟩,
      fun place hp => ⟨(hnew place hp).1, Nat.lt_succ_of_lt (hnew place hp).2⟩⟩

end Planted

/-! ### Placing -/

variable {settings : Settings} {layout : Layout} {α β : Type} {g g' : Graph}

/-- Placing something in a graph fails with the first that goes wrong of what may; if nothing does it
succeeds, and the result is as `P` says. -/
def Placed (layout : Layout) (hazards : List Data.Hazard) (r : Except Data.Fault (α × Graph))
    (P : α → Graph → Prop) : Prop :=
  match hazards.filterMap (Data.Hazard.fault? layout) with
  | [] => ∃ a g', r = .ok (a, g') ∧ P a g'
  | fault :: _ => r = .error fault

namespace Placed

variable {P : α → Graph → Prop} {Q : β → Graph → Prop}
variable {r : Except Data.Fault (α × Graph)} {hazards hazards' : List Data.Hazard}

theorem ok {a : α} (h : P a g) : Placed layout [] (.ok (a, g)) P := ⟨a, g, rfl, h⟩

/-- What is placed first fails first. -/
theorem bind {k : α × Graph → Except Data.Fault (β × Graph)} (h : Placed layout hazards r P)
    (hk : ∀ a g', P a g' → Placed layout hazards' (k (a, g')) Q) :
    Placed layout (hazards ++ hazards') (r >>= k) Q := by
  rw [Placed, List.filterMap_append]
  rw [Placed] at h
  cases hfaults : hazards.filterMap (Data.Hazard.fault? layout) with
  | nil =>
    rw [hfaults] at h
    obtain ⟨a, g', rfl, ha⟩ := h
    exact hk a g' ha
  | cons fault faults =>
    rw [hfaults] at h
    obtain rfl : r = .error fault := h
    rfl

/-- What is done with the result does not fail. -/
theorem map {k : α × Graph → Except Data.Fault (β × Graph)} (h : Placed layout hazards r P)
    (hk : ∀ a g', P a g' → Placed layout [] (k (a, g')) Q) : Placed layout hazards (r >>= k) Q := by
  have hbind := h.bind hk
  rwa [List.append_nil] at hbind

/-- Making room comes before all else. -/
theorem room {hazard : Data.Hazard} {size : Nat} (hsize : hazard.request? layout = some size)
    (h : Placed layout hazards r P) :
    Placed layout (hazard :: hazards) (Data.makeRoom size >>= fun _ => r) P := by
  have hfault : hazard.fault? layout =
      if size ≤ mostBytes then none else some .capacityOverflow := by
    rw [Data.Hazard.fault?, hsize]
  rw [Placed, Data.makeRoom]
  by_cases hroom : size ≤ mostBytes
  · rw [if_pos hroom] at hfault ⊢
    rw [List.filterMap_cons_none hfault]
    exact h
  · rw [if_neg hroom] at hfault ⊢
    rw [List.filterMap_cons_some hfault]
    rfl

end Placed

theorem item?_ofInt (settings : Settings) (i : Int) :
    settings.item? (.ofInt i) = some (.ofInt i) := by
  rw [Value.ofInt]
  split
  · rfl
  · rw [Settings.item?, BigInt.toInt_ofInt]

/-- A scalar is placed and nothing is added. -/
theorem Placed.scalar {v : Value} {item : Item} (hv : settings.item? v = some item)
    (hflat : item.isFlat = true) (g : Graph) :
    Placed layout [] (.ok (v, g)) fun v g' => Planted settings g g' [v] [item] :=
  .ok (.scalar hv hflat (.nil (.refl g)))

namespace Data

theorem planted_newArray {vs : List Value} {items : List Item} (h : Planted settings g g' vs items) :
    Planted settings g (newArray vs g').2 [(newArray vs g').1] [.array items] :=
  h.add (c := .items vs) rfl

theorem planted_newMap {es : List (Value × Value)} {entries : List (Item × Item)}
    (h : Planted settings g g' (unpair es) (unpair entries)) :
    Planted settings g (newMap es g').2 [(newMap es g').1] [.map entries] := by
  have hc : (Cell.map es).contents? = Option.some (.entries es) := rfl
  have hadd := Planted.add hc h
  rwa [Contents.item, pairUp_unpair] at hadd

theorem planted_newVariant (variant : String) {v : Value} {item : Item}
    (h : Planted settings g g' [v] [item]) :
    Planted settings g (newVariant variant v g').2 [(newVariant variant v g').1]
      [.map [(.text variant, item)]] := by
  have hentry : Planted settings g g' (unpair [(.text variant, v)]) (unpair [(.text variant, item)]) :=
    .scalar rfl rfl h
  exact planted_newMap hentry

mutual

/-- **Data is placed as a new tree**, or fails with what goes wrong first. -/
theorem placed_toValue (settings : Settings) (layout : Layout) : ∀ (d : Data) (g : Graph),
    Placed layout d.hazards (d.toValue layout g) fun v g' => Planted settings g g' [v] [d.item]
  | bool _, g => .scalar rfl rfl g
  | integer i, g => .scalar (item?_ofInt settings i) (Item.isFlat_ofInt i) g
  | single _, g => .scalar rfl rfl g
  | double _, g => .scalar rfl rfl g
  | char _, g => .scalar rfl rfl g
  | text _, g => .scalar rfl rfl g
  | bytes _, g => .scalar rfl rfl g
  | none, g => .scalar rfl rfl g
  | some d, g => placed_toValue settings layout d g
  | unit, g => .scalar rfl rfl g
  | unitStruct _, g => .scalar rfl rfl g
  | unitVariant _, g => .scalar rfl rfl g
  | newtypeStruct _ d, g => placed_toValue settings layout d g
  | newtypeVariant variant d, g =>
    (placed_toValue settings layout d g).map fun _ _ h => .ok (planted_newVariant variant h)
  | seq _ ds, g =>
    .room rfl <| (placed_toItems settings layout ds g).map fun _ _ h => .ok (planted_newArray h)
  | tuple _ ds, g =>
    .room rfl <| (placed_toItems settings layout ds g).map fun _ _ h => .ok (planted_newArray h)
  | tupleStruct _ _ ds, g =>
    .room rfl <| (placed_toItems settings layout ds g).map fun _ _ h => .ok (planted_newArray h)
  | tupleVariant variant _ ds, g =>
    .room rfl <| (placed_toItems settings layout ds g).map fun _ _ h =>
      .ok (planted_newVariant variant (planted_newArray h))
  | map _ calls, g =>
    .room rfl <|
      (placed_toEntries settings layout calls Option.none Option.none g g (.nil (.refl g))).map
        fun _ _ h => .ok (planted_newMap h)
  | struct _ _ fs, g =>
    .room rfl <| (placed_toFields settings layout fs g).map fun _ _ h => .ok (planted_newMap h)
  | structVariant variant _ fs, g =>
    .room rfl <| (placed_toFields settings layout fs g).map fun _ _ h =>
      .ok (planted_newVariant variant (planted_newMap h))
  | humanReadable, g => .scalar rfl rfl g
  | refused _, _ => rfl

/-- Data in order is placed as new trees. -/
theorem placed_toItems (settings : Settings) (layout : Layout) : ∀ (ds : List Data) (g : Graph),
    Placed layout (itemHazards ds) (toItems layout ds g) fun vs g' =>
      Planted settings g g' vs (items ds)
  | [], g => .ok (.nil (.refl g))
  | d :: ds, g =>
    (placed_toValue settings layout d g).bind fun _ g₁ hv =>
      (placed_toItems settings layout ds g₁).map fun _ _ hvs => .ok (hv.append hvs)

/-- The entries that calls supply are placed as new trees, with the key whose value has not come. -/
theorem placed_toEntries (settings : Settings) (layout : Layout) :
    ∀ (calls : List MapCall) (pending : Option Value) (key : Option Item) (g₀ g : Graph),
    Planted settings g₀ g pending.toList key.toList →
    Placed layout (callHazards key.isSome calls) (toEntries layout calls pending g) fun es g' =>
      Planted settings g₀ g' (unpair es) (unpair (entries key calls))
  | [], _, _, _, _, h => .ok (.nil h.1)
  | .key d :: calls, _, _, g₀, g, h =>
    (placed_toValue settings layout d g).bind fun k g₁ hk =>
      placed_toEntries settings layout calls (Option.some k) (Option.some d.item) g₀ g₁
        (hk.earlier h.1)
  | .value _ :: _, Option.none, Option.none, _, _, _ => rfl
  -- The key has come as a value and as an item, or as neither.
  | .value _ :: _, Option.none, Option.some _, _, _, h => nomatch h.length_eq
  | .value _ :: _, Option.some _, Option.none, _, _, h => nomatch h.length_eq
  | .value d :: calls, Option.some _, Option.some _, _, g, h =>
    (placed_toValue settings layout d g).bind fun _ g₁ hv =>
      (placed_toEntries settings layout calls Option.none Option.none g₁ g₁ (.nil (.refl g₁))).map
        fun _ _ hes => .ok ((h.append hv).append hes)
  | .entry k d :: calls, _, _, _, g, h => by
    rw [callHazards, List.append_assoc]
    refine (placed_toValue settings layout k g).bind fun _ g₁ hk => ?_
    refine (placed_toValue settings layout d g₁).bind fun _ g₂ hv => ?_
    refine (placed_toEntries settings layout calls Option.none Option.none g₂ g₂
      (.nil (.refl g₂))).map fun _ _ hes => ?_
    exact .ok (((hk.earlier h.1).append hv).append hes)

/-- The entries of fields are placed as new trees. -/
theorem placed_toFields (settings : Settings) (layout : Layout) :
    ∀ (fs : List (String × Option Data)) (g : Graph),
    Placed layout (fieldHazards fs) (toFields layout fs g) fun es g' =>
      Planted settings g g' (unpair es) (unpair (fields fs))
  | [], g => .ok (.nil (.refl g))
  | (_, Option.some d) :: fs, g =>
    (placed_toValue settings layout d g).bind fun _ g₁ hv =>
      (placed_toFields settings layout fs g₁).map fun _ _ hes =>
        .ok (.scalar rfl rfl (hv.append hes))
  | (_, Option.none) :: fs, g => placed_toFields settings layout fs g

end

end Data

end CborGraph
