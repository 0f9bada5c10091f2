import CborGraph.Data
import CborGraph.Proofs.Walk
import Mathlib.Data.List.Basic

/-!
# The item of serialised data

What data is as one data item, read off the calls that supply it: `Data.item`. Options and
structures around one thing add nothing, and the elements of sequences, maps and structures come in
the order of the calls, as many as there are, whatever was announced. `Data.hazards` is what may go
wrong, in the order of the calls: room is made for as many elements as were announced, or there is an
error. `Data.faults` are those that do go wrong. If there is room for every list they are the errors,
`Data.faults_of_requests`.

With sharing on an item is written with a mark before every array and map that is not empty,
`Item.marked`. No reference comes into an item in this way, `Item.refers_marked`.
-/

namespace CborGraph

namespace Data

mutual

/-- The data item that data is, if it is not broken. -/
def item : Data → Item
  | bool b => .simple (if b then 21 else 20)
  | integer i => .ofInt i
  | single bits => .float (Binary64.ofSingle bits).quiet
  | double x => .float x.quiet
  | char c => .text (String.singleton c)
  | text s => .text s
  | bytes bs => .bytes bs
  | none => .simple 22
  | some d => item d
  | unit => .simple 22
  | unitStruct _ => .simple 22
  | unitVariant variant => .text variant
  | newtypeStruct _ d => item d
  | newtypeVariant variant d => .map [(.text variant, item d)]
  | seq _ ds => .array (items ds)
  | tuple _ ds => .array (items ds)
  | tupleStruct _ _ ds => .array (items ds)
  | tupleVariant variant _ ds => .map [(.text variant, .array (items ds))]
  | map _ calls => .map (entries Option.none calls)
  | struct _ _ fs => .map (fields fs)
  | structVariant variant _ fs => .map [(.text variant, .map (fields fs))]
  | humanReadable => .simple 20
  | refused _ => .simple 22

/-- The items of data in order. -/
def items : List Data → List Item
  | [] => []
  | d :: ds => item d :: items ds

/-- The entries that calls supply, when `pending` is a key whose value has not come. -/
def entries : Option Item → List MapCall → List (Item × Item)
  | _, [] => []
  | _, .key d :: calls => entries (Option.some (item d)) calls
  | Option.none, .value _ :: calls => entries Option.none calls
  | Option.some k, .value d :: calls => (k, item d) :: entries Option.none calls
  | _, .entry k d :: calls => (item k, item d) :: entries Option.none calls

/-- The entries of fields that are not skipped. -/
def fields : List (String × Option Data) → List (Item × Item)
  | [] => []
  | (name, Option.some d) :: fs => (.text name, item d) :: fields fs
  | (_, Option.none) :: fs => fields fs

end

/-! ### What may go wrong -/

/-- What may go wrong at a call. -/
inductive Hazard
  /-- Room is made for so many items of an array. -/
  | items (length : UInt64)
  /-- Room is made for so many entries of a map. -/
  | entries (length : UInt64)
  /-- There is an error. -/
  | error (e : EncodeError)

namespace Hazard

/-- The error, if there is one. -/
def error? : Hazard → Option EncodeError
  | error e => Option.some e
  | _ => Option.none

/-- The bytes that room is made for, if it is. -/
def request? (layout : Layout) : Hazard → Option Nat
  | items length => Option.some (layout.item * length.toNat)
  | entries length => Option.some (layout.entry * length.toNat)
  | error _ => Option.none

/-- What goes wrong: an error always does, and so does making room for too many bytes. -/
def fault? (layout : Layout) (h : Hazard) : Option Fault :=
  match h.request? layout with
  | Option.some size => if size ≤ mostBytes then Option.none else Option.some .capacityOverflow
  | Option.none => h.error?.map .error

end Hazard

mutual

/-- What may go wrong with data, in the order of the calls: room is made for the elements of a list
before they come, data refuses, or the value of an entry comes without a key. -/
def hazards : Data → List Hazard
  | some d => hazards d
  | newtypeStruct _ d => hazards d
  | newtypeVariant _ d => hazards d
  | seq length ds => .items (length.getD 0) :: itemHazards ds
  | tuple length ds => .items length :: itemHazards ds
  | tupleStruct _ length ds => .items length :: itemHazards ds
  | tupleVariant _ length ds => .items length :: itemHazards ds
  | map length calls => .entries (length.getD 0) :: callHazards false calls
  | struct _ length fs => .entries length :: fieldHazards fs
  | structVariant _ length fs => .entries length :: fieldHazards fs
  | refused s => [.error (.serialization s)]
  | _ => []

/-- What may go wrong with data in order. -/
def itemHazards : List Data → List Hazard
  | [] => []
  | d :: ds => hazards d ++ itemHazards ds

/-- What may go wrong with the calls for a map, when there is a key whose value has not come or not. -/
def callHazards (pending : Bool) : List MapCall → List Hazard
  | [] => []
  | .key d :: calls => hazards d ++ callHazards true calls
  | .value d :: calls =>
    (if pending then [] else [.error keyMissing]) ++ hazards d ++ callHazards false calls
  | .entry k d :: calls => hazards k ++ hazards d ++ callHazards false calls

/-- What may go wrong with the fields of a structure. -/
def fieldHazards : List (String × Option Data) → List Hazard
  | [] => []
  | (_, Option.some d) :: fs => hazards d ++ fieldHazards fs
  | (_, Option.none) :: fs => fieldHazards fs

end

/-- The errors of data, in the order of the calls. -/
def errors (d : Data) : List EncodeError := d.hazards.filterMap Hazard.error?

/-- The bytes that room is made for, list by list. -/
def requests (layout : Layout) (d : Data) : List Nat := d.hazards.filterMap (Hazard.request? layout)

/-- What goes wrong with data, in the order of the calls. -/
def faults (layout : Layout) (d : Data) : List Fault := d.hazards.filterMap (Hazard.fault? layout)

/-- **If there is room for every list only errors go wrong.** -/
theorem faults_of_requests {layout : Layout} {d : Data}
    (h : ∀ size ∈ d.requests layout, size ≤ mostBytes) : d.faults layout = d.errors.map .error := by
  rw [faults, errors, List.map_filterMap]
  refine List.filterMap_congr fun hazard hmem => ?_
  rw [Hazard.fault?]
  split
  · next size hsize =>
    rw [if_pos (h size (List.mem_filterMap.mpr ⟨hazard, hmem, hsize⟩))]
    cases hazard with
    | error e => cases hsize
    | _ => rfl
  · rfl

end Data

/-! ### Marks -/

namespace Item

/-- The item under a mark, unless there is nothing in it. -/
def withMark (length : Nat) (item : Item) : Item :=
  if length = 0 then item else tag Tag.shareable.toNat item

mutual

/-- The item with a mark before every array and map that is not empty. -/
def marked : Item → Item
  | array items => withMark items.length (array (markedAll items))
  | map entries => withMark entries.length (map (markedPairs entries))
  | tag number item => tag number (marked item)
  | item => item

/-- Items in order, each with marks. -/
def markedAll : List Item → List Item
  | [] => []
  | item :: items => marked item :: markedAll items

/-- Pairs of items in order, each with marks. -/
def markedPairs : List (Item × Item) → List (Item × Item)
  | [] => []
  | (k, v) :: entries => (marked k, marked v) :: markedPairs entries

end

mutual

/-- There is a reference in the item. -/
def refers : Item → Bool
  | array items => refersAny items
  | map entries => refersPairs entries
  | tag number item => number == Tag.reference.toNat || refers item
  | _ => false

/-- There is a reference in one of the items. -/
def refersAny : List Item → Bool
  | [] => false
  | item :: items => refers item || refersAny items

/-- There is a reference in one of the pairs. -/
def refersPairs : List (Item × Item) → Bool
  | [] => false
  | (k, v) :: entries => refers k || refers v || refersPairs entries

end

/-- There is no array, map or reference in the item. -/
def isFlat : Item → Bool
  | array _ => false
  | map _ => false
  | tag number item => number != Tag.reference.toNat && isFlat item
  | _ => true

theorem isFlat_ofInt (i : Int) : (ofInt i).isFlat = true := by
  rw [ofInt]
  split_ifs <;> rfl

/-- There is nothing to mark in a flat item. -/
theorem marked_of_isFlat : ∀ {item : Item}, item.isFlat = true → item.marked = item
  | unsigned _, _ => rfl
  | negative _, _ => rfl
  | bytes _, _ => rfl
  | text _, _ => rfl
  | tag number item, h => by
    rw [isFlat, Bool.and_eq_true] at h
    rw [marked, marked_of_isFlat h.2]
  | simple _, _ => rfl
  | float _, _ => rfl

theorem refers_of_isFlat : ∀ {item : Item}, item.isFlat = true → item.refers = false
  | unsigned _, _ => rfl
  | negative _, _ => rfl
  | bytes _, _ => rfl
  | text _, _ => rfl
  | tag number item, h => by
    rw [isFlat, Bool.and_eq_true, bne_iff_ne] at h
    rw [refers, refers_of_isFlat h.2, beq_eq_false_iff_ne.mpr h.1, Bool.or_false]
  | simple _, _ => rfl
  | float _, _ => rfl

/-- The item as it is written with sharing on or off. -/
def shown (sharing : Bool) (item : Item) : Item := if sharing then item.marked else item

theorem shown_of_isFlat {item : Item} (h : item.isFlat = true) (sharing : Bool) :
    item.shown sharing = item := by
  cases sharing with
  | true => exact marked_of_isFlat h
  | false => rfl

theorem markedAll_eq (items : List Item) : markedAll items = items.map marked := by
  induction items with
  | nil => rfl
  | cons item items ih => rw [markedAll, List.map_cons, ih]

theorem markedPairs_eq (entries : List (Item × Item)) :
    markedPairs entries = entries.map fun (k, v) => (k.marked, v.marked) := by
  induction entries with
  | nil => rfl
  | cons e entries ih => rw [markedPairs, List.map_cons, ih]

theorem refersAny_eq (items : List Item) : refersAny items = items.any refers := by
  induction items with
  | nil => rfl
  | cons item items ih => rw [refersAny, List.any_cons, ih]

theorem refersPairs_eq (entries : List (Item × Item)) :
    refersPairs entries = (unpair entries).any refers := by
  induction entries with
  | nil => rfl
  | cons e entries ih =>
    rw [refersPairs, unpair_cons, List.any_cons, List.any_cons, ih, Bool.or_assoc]

theorem refers_withMark (length : Nat) (item : Item) :
    (withMark length item).refers = item.refers := by
  unfold withMark
  split <;> rfl

mutual

/-- **Marks are no references.** -/
theorem refers_marked : ∀ item : Item, item.marked.refers = item.refers
  | unsigned _ => rfl
  | negative _ => rfl
  | bytes _ => rfl
  | text _ => rfl
  | array items => by rw [marked, refers_withMark, refers, refers, refersAny_marked items]
  | map entries => by rw [marked, refers_withMark, refers, refers, refersPairs_marked entries]
  | tag number item => by rw [marked, refers, refers, refers_marked item]
  | simple _ => rfl
  | float _ => rfl

theorem refersAny_marked : ∀ items : List Item, refersAny (markedAll items) = refersAny items
  | [] => rfl
  | item :: items => by
    rw [markedAll, refersAny, refersAny, refers_marked item, refersAny_marked items]

theorem refersPairs_marked :
    ∀ entries : List (Item × Item), refersPairs (markedPairs entries) = refersPairs entries
  | [] => rfl
  | (k, v) :: entries => by
    rw [markedPairs, refersPairs, refersPairs, refers_marked k, refers_marked v,
      refersPairs_marked entries]

end

end Item

/-! ### Containers -/

theorem pairUp_map {α β : Type} (f : α → β) :
    ∀ l : List α, pairUp (l.map f) = (pairUp l).map (Prod.map f f)
  | [] => rfl
  | [_] => rfl
  | a :: b :: rest => by
    rw [List.map_cons, List.map_cons, pairUp, pairUp, List.map_cons, pairUp_map f rest]
    rfl

namespace Contents

variable {c : Contents} {parts : List Item}

/-- The item of a container is marked unless the container is empty, and so are its parts. -/
theorem marked_item (h : parts.length = c.values.length) :
    (c.item parts).marked = Item.withMark c.length (c.item (parts.map Item.marked)) := by
  cases c with
  | items vs => rw [item, item, Item.marked, Item.markedAll_eq, h, values, length]
  | entries es =>
    rw [values, length_unpair] at h
    rw [item, item, Item.marked, Item.markedPairs_eq, pairUp_map, length_pairUp h, length]
    rfl

/-- An empty container is written without a mark. -/
theorem shown_empty (h0 : c.length = 0) (sharing : Bool) :
    (c.item []).shown sharing = c.item [] := by
  cases sharing with
  | false => rfl
  | true =>
    have hnil : ([] : List Item).length = c.values.length := by rw [c.values_eq_nil_iff.mpr h0]; rfl
    rw [Item.shown, if_pos rfl, marked_item hnil, h0, Item.withMark, if_pos rfl, List.map_nil]

/-- A container that is not empty is written as one that is entered. -/
theorem shown_entered (h : parts.length = c.values.length) (h0 : c.length ≠ 0) (sharing : Bool) :
    (c.item parts).shown sharing = c.entered sharing (parts.map (Item.shown sharing)) := by
  cases sharing with
  | false =>
    have hsame : parts.map (Item.shown false) = parts := List.map_id parts
    rw [hsame]
    rfl
  | true =>
    have hsame : parts.map (Item.shown true) = parts.map Item.marked := rfl
    rw [hsame, entered, if_pos rfl, Item.shown, if_pos rfl, marked_item h, Item.withMark, if_neg h0]

/-- The item of a container refers to something if one of its parts does. -/
theorem refers_item (h : parts.length = c.values.length) :
    (c.item parts).refers = parts.any Item.refers := by
  cases c with
  | items vs => rw [item, Item.refers, Item.refersAny_eq]
  | entries es =>
    rw [values, length_unpair] at h
    rw [item, Item.refers, Item.refersPairs_eq, unpair_pairUp parts _ h]

end Contents

end CborGraph
