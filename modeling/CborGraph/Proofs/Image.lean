import CborGraph.Proofs.WalkItem

/-!
# Images

With sharing off a value is written as its tree. `Images` says which items the values of a
graph are: a scalar is its item, a tag is around the item of what it stands for, and a
container is an array or a map of the items in it, in order, with repeated keys kept. Only
graphs without cycles have images, and no more than one, `Images.unique`.

Main statement: `parse_encodeToBytes`, what was encoded is read back as the image, whatever
follows it, by a reader that accepts the shortest heads only. So outputs are no prefixes of
each other, and two values have the same bytes exactly if they have the same image.
-/

namespace CborGraph

/-- The items that values are, in order. -/
inductive Images (settings : Settings) (view : View) : List Value → List Item → Prop
  /-- No value. -/
  | nil : Images settings view [] []
  /-- A scalar is its item. -/
  | scalar {v item vs items} (hv : settings.item? v = some item) (hrest : Images settings view vs items) :
      Images settings view (v :: vs) (item :: items)
  /-- A tag is a tag around the item of what it stands for. -/
  | tag {number v item vs items} (hpayload : Images settings view [v] [item])
      (hrest : Images settings view vs items) :
      Images settings view (.tag number v :: vs) (.tag number.toNat item :: items)
  /-- A container is an array or a map of the items in it. -/
  | container {id c parts vs items} (hc : view.contents? id = some c)
      (hparts : Images settings view c.values parts) (hrest : Images settings view vs items) :
      Images settings view (.container id :: vs) (c.item parts :: items)

section Images

variable {settings : Settings} {view : View} {vs : List Value} {items : List Item}

/-- **There is no more than one image.** -/
theorem Images.unique (h : Images settings view vs items) :
    ∀ {others}, Images settings view vs others → others = items := by
  induction h with
  | nil =>
    intro others h'
    cases h'
    rfl
  | scalar hv _ ih =>
    intro others h'
    cases h' with
    | scalar hv' hrest =>
      rw [hv] at hv'
      cases hv'
      rw [ih hrest]
    | tag _ _ => cases hv
    | container _ _ _ => cases hv
  | tag _ _ ihp ih =>
    intro others h'
    cases h' with
    | scalar hv' _ => cases hv'
    | tag hpayload hrest =>
      obtain rfl := List.singleton_inj.mp (ihp hpayload)
      rw [ih hrest]
  | container hc _ _ ihc ih =>
    intro others h'
    cases h' with
    | scalar hv' _ => cases hv'
    | container hc' hparts hrest =>
      rw [hc] at hc'
      cases hc'
      rw [ihc hparts, ih hrest]

/-- **A walk without refusals goes through the image**, with sharing off. -/
theorem Walks.images {opened : List Ident} {marks marks' : Marks} {w : Walk}
    (hw : Walks settings view false opened marks vs w marks') (hok : w.refusals = []) :
    Images settings view vs (w.items false) := by
  induction hw with
  | done => exact .nil
  | scalar hv _ ih => exact .scalar hv (ih hok)
  | refused _ _ _ => cases hok
  | tag hpayload _ ihp ih =>
    obtain ⟨hp, hr⟩ := List.append_eq_nil_iff.mp hok
    obtain ⟨item, hitem⟩ := (hpayload.visits hp).items_singleton false
    have himage := ihp hp
    rw [hitem] at himage
    rw [Walk.items, hitem]
    exact .tag himage (ih hr)
  | @empty _ _ _ c _ _ _ hc h0 _ ih =>
    have hnil : Images settings view c.values [] := by
      rw [c.values_eq_nil_iff.mpr h0]
      exact .nil
    exact .container hc hnil (ih hok)
  | again _ _ hon _ _ _ => cases hon
  | cyclic _ _ _ _ _ _ => cases hok
  | entered hc _ _ _ _ ihb ih =>
    obtain ⟨hb, hr⟩ := List.append_eq_nil_iff.mp hok
    exact .container hc (ihb hb) (ih hr)

end Images

/-! ### Documents -/

/-- With sharing off the bytes are those of the image. -/
theorem encodeToBytes_image {o : Options} (ho : o.overrides = []) (hoff : o.sharing = false) {g : Graph}
    (hg : g.Sized) {v : Value} (hv : v.Sized) {bs : Bytes} (h : encodeToBytes o g v = some (.ok bs)) :
    ∃ item, Images o.toSettings g.view [v] [item] ∧ item.Fits ∧ bs = item.wire o.compactFloats := by
  obtain ⟨hdone, hbytes⟩ := encodeToBytes_eq_some_ok_iff.mp h
  obtain ⟨w, marks, item, hw, hok, hitem, hfits, hwire⟩ := encode_item ho hg hv rfl hdone
  rw [hoff] at hw hitem
  have himage := hw.images hok
  rw [hitem] at himage
  refine ⟨item, himage, hfits, ?_⟩
  rw [← hbytes, hwire]
  rfl

/-- **Decoding undoes encoding.** With sharing off and no entries of the caller, what was encoded
is one item, the image of the value, and is read back as such whatever follows it, also if
only the shortest heads are accepted. No output is the start of another, and two outputs are
equal exactly if the values have the same image, given that floats are written in the same
formats. -/
theorem parse_encodeToBytes {o : Options} (ho : o.overrides = []) (hoff : o.sharing = false) {g : Graph}
    (hg : g.Sized) {v : Value} (hv : v.Sized) {bs : Bytes} (h : encodeToBytes o g v = some (.ok bs)) :
    ∃ item, (∀ other, Images o.toSettings g.view [v] [other] ↔ other = item) ∧
      (∀ preferred rest, Item.parse preferred (bs ++ rest) = some (item, rest)) ∧
      ∀ (o' : Options) (g' : Graph) (v' : Value) (bs' : Bytes), o'.overrides = [] → o'.sharing = false →
        g'.Sized → v'.Sized → encodeToBytes o' g' v' = some (.ok bs') →
          (bs <+: bs' → bs = bs') ∧
          (bs = bs' → Images o'.toSettings g'.view [v'] [item]) ∧
          (o'.compactFloats = o.compactFloats → Images o'.toSettings g'.view [v'] [item] → bs = bs') := by
  obtain ⟨item, himage, hfits, rfl⟩ := encodeToBytes_image ho hoff hg hv h
  refine ⟨item, ?_, fun preferred rest => Item.parse_wire preferred _ hfits rest, ?_⟩
  · intro other
    constructor
    · intro hother
      exact List.singleton_inj.mp (himage.unique hother)
    · rintro rfl
      exact himage
  · intro o' g' v' bs' ho' hoff' hg' hv' h'
    obtain ⟨other, hother, hfits', rfl⟩ := encodeToBytes_image ho' hoff' hg' hv' h'
    refine ⟨?_, ?_, ?_⟩
    · rintro ⟨rest, hprefix⟩
      obtain ⟨_, rfl⟩ := Item.eq_of_wire_append hfits hfits' hprefix
      rw [← hprefix, List.append_nil]
    · intro heq
      rw [← List.append_nil (item.wire _)] at heq
      obtain ⟨rfl, _⟩ := Item.eq_of_wire_append hfits hfits' heq
      exact hother
    · intro hcompact himage'
      rw [hcompact, List.singleton_inj.mp (hother.unique himage')]

/-- An array of a negative integer and of a tag around a map, with a byte after it. -/
theorem parse_encodeToBytes_nested :
    let g : Graph := ⟨#[.array [.integer (-1), .tag 5 (.container (.stored 1))],
      .map [(.bool true, .float ⟨0x3FF8000000000000⟩)]]⟩
    let v : Value := .container (.stored 0)
    let bs : Bytes := [0x82, 0x20, 0xC5, 0xA1, 0xF5, 0xFB, 0x3F, 0xF8, 0, 0, 0, 0, 0, 0]
    ({} : Options).overrides = [] ∧ ({} : Options).sharing = false ∧ g.Sized ∧ v.Sized ∧
      encodeToBytes {} g v = some (.ok bs) ∧
      Item.parse true (bs ++ [0xFF]) =
        some (.array [.negative 0, .tag 5 (.map [(.simple 21, .float ⟨0x3FF8000000000000⟩)])], [0xFF]) := by
  intro g v bs
  have hmap : Images {} g.view [.container (.stored 1)] [Contents.item [_, _] (.entries _)] :=
    .container rfl (.scalar rfl (.scalar rfl .nil)) .nil
  have himage : Images {} g.view [v] [Contents.item [_, _] (.items _)] :=
    .container rfl (.scalar rfl (.tag hmap .nil)) .nil
  have hnew : .stored 1 ∉ [Ident.stored 0] := by decide
  have hw : Walks {} g.view false [] [] [v] _ [] :=
    .entered (c := .items _) rfl (by decide) List.not_mem_nil
      (.scalar rfl (.tag (.entered (c := .entries _) rfl (by decide) hnew
        (.scalar rfl (.scalar rfl .done)) .done) .done)) .done
  have hbytes : encodeToBytes {} g v = some (.ok bs) :=
    encodeToBytes_eq_some_ok_iff.mpr (encode_of_walks (o := {}) rfl hw rfl rfl)
  have hsized : g.Sized := by decide
  have hv : v.Sized := trivial
  obtain ⟨item, honly, hparse, _⟩ := parse_encodeToBytes (o := {}) rfl rfl hsized hv hbytes
  obtain rfl := (honly _).mp himage
  exact ⟨rfl, rfl, hsized, hv, hbytes, hparse true [0xFF]⟩

end CborGraph
