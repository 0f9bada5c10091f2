import CborGraph.Proofs.ItemReader
import CborGraph.Proofs.ScalarRun

/-!
# Items with shared containers

A decoder for items in which containers are marked and referred to. It makes a node of each
container that is marked, numbered in the order in which they begin, and keeps the nodes that
are open. A reference is to an open node, by its place counted from the outermost. The result
is the `Linked` item and what is in each of the nodes.

An item with no marks and no references is read as it is, `Linked.ofItem`; scalars are such,
`load_scalar`.
-/

namespace CborGraph

/-- An item in which containers may be nodes. -/
inductive Linked
  /-- An item with no items in it. -/
  | leaf (item : Item)
  /-- Linked items in order. -/
  | array (parts : List Linked)
  /-- Pairs of linked items in order. -/
  | map (entries : List (Linked × Linked))
  /-- A tag around a linked item. -/
  | tag (number : Nat) (part : Linked)
  /-- A node. -/
  | node (place : Nat)

namespace Linked

mutual

/-- An item as it is. -/
def ofItem : Item → Linked
  | .array items => array (ofItems items)
  | .map entries => map (ofEntries entries)
  | .tag number item => tag number (ofItem item)
  | item => leaf item

/-- Items as they are. -/
def ofItems : List Item → List Linked
  | [] => []
  | item :: items => ofItem item :: ofItems items

/-- Pairs of items as they are. -/
def ofEntries : List (Item × Item) → List (Linked × Linked)
  | [] => []
  | (k, v) :: entries => (ofItem k, ofItem v) :: ofEntries entries

end

/-! ### Decoding -/

/-- The open node that a reference is to. -/
def resolve (opened : List Nat) : Item → Option Linked
  | .unsigned index => (opened.reverse[index]?).map node
  | _ => none

mutual

/-- The linked item of an item, and what is in the nodes in it. The nodes `opened` are open,
innermost first, and new ones are numbered from `next` on. -/
def load (opened : List Nat) (next : Nat) : Item → Option (Linked × List Linked)
  | .tag number item =>
    if number = Tag.shareable.toNat then loadNode opened next item
    else if number = Tag.reference.toNat then (resolve opened item).map fun part => (part, [])
    else (load opened next item).map fun (part, nodes) => (tag number part, nodes)
  | .array items => (loadAll opened next items).map fun (parts, nodes) => (array parts, nodes)
  | .map entries =>
    (loadPairs opened next entries).map fun (parts, nodes) => (map (pairUp parts), nodes)
  | item => some (leaf item, [])

/-- The node of a container that is marked. -/
def loadNode (opened : List Nat) (next : Nat) : Item → Option (Linked × List Linked)
  | .array items =>
    (loadAll (next :: opened) (next + 1) items).map fun (parts, nodes) =>
      (node next, array parts :: nodes)
  | .map entries =>
    (loadPairs (next :: opened) (next + 1) entries).map fun (parts, nodes) =>
      (node next, map (pairUp parts) :: nodes)
  | _ => none

/-- Items in order. -/
def loadAll (opened : List Nat) (next : Nat) : List Item → Option (List Linked × List Linked)
  | [] => some ([], [])
  | item :: items =>
    (load opened next item).bind fun (part, nodes) =>
      (loadAll opened (next + nodes.length) items).map fun (parts, more) =>
        (part :: parts, nodes ++ more)

/-- The members of pairs of items in order. -/
def loadPairs (opened : List Nat) (next : Nat) :
    List (Item × Item) → Option (List Linked × List Linked)
  | [] => some ([], [])
  | (k, v) :: entries =>
    (load opened next k).bind fun (key, nodes) =>
      (load opened (next + nodes.length) v).bind fun (value, more) =>
        (loadPairs opened (next + (nodes ++ more).length) entries).map fun (parts, rest) =>
          (key :: value :: parts, nodes ++ more ++ rest)

end

/-- The document at the start of a byte string: its linked item, what is in its nodes, and the
bytes that follow. -/
def decode (bs : Bytes) : Option (Linked × List Linked × Bytes) :=
  (Item.parse true bs).bind fun (item, rest) =>
    (load [] 0 item).map fun (root, nodes) => (root, nodes, rest)

theorem loadPairs_eq (opened : List Nat) (next : Nat) (entries : List (Item × Item)) :
    loadPairs opened next entries = loadAll opened next (unpair entries) := by
  induction entries generalizing next with
  | nil => rfl
  | cons e entries ih =>
    obtain ⟨k, v⟩ := e
    rw [unpair_cons, loadPairs, loadAll]
    cases load opened next k with
    | none => rfl
    | some p =>
      obtain ⟨key, nodes⟩ := p
      simp only [Option.bind_some]
      rw [loadAll]
      cases load opened (next + nodes.length) v with
      | none => rfl
      | some q =>
        obtain ⟨value, more⟩ := q
        simp only [Option.bind_some, List.length_append, ← Nat.add_assoc, ih]
        cases loadAll opened (next + nodes.length + more.length) (unpair entries) with
        | none => rfl
        | some r => simp

/-! ### Scalars -/

theorem load_ofInt (opened : List Nat) (next : Nat) (i : Int) :
    load opened next (.ofInt i) = some (ofItem (.ofInt i), []) := by
  rw [Item.ofInt]
  split_ifs <;> rfl

theorem load_dateTimeItem (settings : Settings) (opened : List Nat) (next : Nat) (t : DateTime) :
    load opened next (settings.dateTimeItem t) = some (ofItem (settings.dateTimeItem t), []) := by
  rw [Settings.dateTimeItem]
  split
  · rw [load, if_neg (by decide), if_neg (by decide)]
    split
    · rw [load_ofInt]
      rfl
    · rfl
  · rfl

theorem load_pair {number : UInt64} (hs : number.toNat ≠ Tag.shareable.toNat)
    (hr : number.toNat ≠ Tag.reference.toNat) (opened : List Nat) (next : Nat) (i j : Int) :
    load opened next (.tag number.toNat (.array [.ofInt i, .ofInt j])) =
      some (ofItem (.tag number.toNat (.array [.ofInt i, .ofInt j])), []) := by
  rw [load, if_neg hs, if_neg hr, load, loadAll, load_ofInt]
  simp only [Option.bind_some]
  rw [loadAll, load_ofInt]
  rfl

/-- **The item of a scalar is read as it is.** -/
theorem load_scalar {settings : Settings} {v : Value} {item : Item} (h : settings.item? v = some item)
    (opened : List Nat) (next : Nat) : load opened next item = some (ofItem item, []) := by
  cases v with
  | integer i => cases h; exact load_ofInt opened next i
  | bigInt n => cases h; exact load_ofInt opened next _
  | dateTime t => cases h; exact load_dateTimeItem settings opened next t
  | naiveDateTime t =>
    obtain ⟨u, _, rfl⟩ := Option.map_eq_some_iff.mp h
    exact load_dateTimeItem settings opened next u
  | date d => cases h; exact load_dateTimeItem settings opened next _
  | decimal d =>
    cases h
    cases d with
    | finite mantissa exponent => exact load_pair (by decide) (by decide) opened next _ _
    | _ => rfl
  | rational r => cases h; exact load_pair (by decide) (by decide) opened next _ _
  | tag number v => cases h
  | container id => cases h
  | _ => cases h; rfl

end Linked

end CborGraph
