import CborGraph.Proofs.HeadReader
import CborGraph.Proofs.Widening

/-!
# Data items

What a decoder makes of a byte string: an item is an integer, a string, a number, or made
of items. `Item.wire` writes an item with every head in the shortest form, and `Item.Fits`
says that its lengths and numbers have room in a head. Doubles are items of their own,
whichever of the three formats they are written in; of the NaNs only one is an item.

Integers of any size are items by `Item.ofInt`, and `int?_ofInt` says that the item stands
for the integer.
-/

namespace CborGraph

/-- The NaN whose fraction has its first bit set only. -/
def Binary64.nan : Binary64 := ⟨0x7FF8000000000000⟩

/-- The double with every NaN taken for the same one. -/
def Binary64.quiet (x : Binary64) : Binary64 := if x.isNaN then nan else x

/-- A data item. -/
inductive Item
  /-- The integer `n`. -/
  | unsigned (n : Nat)
  /-- The integer `-1 - n`. -/
  | negative (n : Nat)
  /-- A byte string. -/
  | bytes (bs : Bytes)
  /-- A text. -/
  | text (s : String)
  /-- Items in order. -/
  | array (items : List Item)
  /-- Pairs of items in order. -/
  | map (entries : List (Item × Item))
  /-- A tag around an item. -/
  | tag (number : Nat) (item : Item)
  /-- A simple value. -/
  | simple (n : Nat)
  /-- A double. -/
  | float (x : Binary64)

/-- Neighbours in pairs; one that is left over is dropped. -/
def pairUp {α : Type} : List α → List (α × α)
  | a :: b :: rest => (a, b) :: pairUp rest
  | _ => []

/-- The members of pairs in order. -/
def unpair {α : Type} (pairs : List (α × α)) : List α := pairs.flatMap fun (a, b) => [a, b]

section Pairs

variable {α : Type}

@[simp] theorem unpair_nil : unpair ([] : List (α × α)) = [] := rfl

@[simp] theorem unpair_cons (a b : α) (pairs : List (α × α)) :
    unpair ((a, b) :: pairs) = a :: b :: unpair pairs := rfl

@[simp] theorem pairUp_unpair (pairs : List (α × α)) : pairUp (unpair pairs) = pairs := by
  induction pairs with
  | nil => rfl
  | cons p pairs ih => rw [unpair_cons, pairUp, ih]

@[simp] theorem length_unpair (pairs : List (α × α)) : (unpair pairs).length = 2 * pairs.length := by
  induction pairs with
  | nil => rfl
  | cons p pairs ih =>
    rw [unpair_cons, List.length_cons, List.length_cons, ih, List.length_cons]
    omega

/-- A list of even length is made of pairs. -/
theorem unpair_pairUp : ∀ (l : List α) (n : Nat), l.length = 2 * n → unpair (pairUp l) = l
  | [], _, _ => rfl
  | [_], n, h => by simp at h; omega
  | a :: b :: rest, n, h => by
    have hrest : rest.length = 2 * (n - 1) := by simp at h; omega
    rw [pairUp, unpair_cons, unpair_pairUp rest (n - 1) hrest]

theorem length_pairUp {l : List α} {n : Nat} (h : l.length = 2 * n) : (pairUp l).length = n := by
  have := congrArg List.length (unpair_pairUp l n h)
  rw [length_unpair] at this
  omega

end Pairs

namespace Item

/-! ### Integers -/

/-- An integer of any size: the integer itself if a head has room for it, and otherwise a
tag around the least byte string. -/
def ofInt (i : Int) : Item :=
  if 0 ≤ i then
    if i < 2 ^ 64 then unsigned i.toNat
    else tag Tag.positiveBignum.toNat (bytes (Bytes.ofNat i.toNat))
  else
    if -2 ^ 64 ≤ i then negative (-1 - i).toNat
    else tag Tag.negativeBignum.toNat (bytes (Bytes.ofNat (-1 - i).toNat))

/-- The integer that an item stands for. -/
def int? : Item → Option Int
  | unsigned n => some n
  | negative n => some (-1 - n)
  | tag 2 (bytes bs) => some (Bytes.toNat bs)
  | tag 3 (bytes bs) => some (-1 - Bytes.toNat bs)
  | _ => none

/-- **The item of an integer stands for the integer.** -/
theorem int?_ofInt (i : Int) : (ofInt i).int? = some i := by
  rw [ofInt]
  split_ifs with h₁ h₂ h₂
  · rw [int?]
    congr 1
    omega
  · rw [show Tag.positiveBignum.toNat = 2 from rfl, int?, Bytes.toNat_ofNat]
    congr 1
    omega
  · rw [int?]
    congr 1
    omega
  · rw [show Tag.negativeBignum.toNat = 3 from rfl, int?, Bytes.toNat_ofNat]
    congr 1
    omega

/-! ### Writing -/

mutual

/-- The bytes of an item, with every head in the shortest form. -/
def wire (compact : Bool) : Item → Bytes
  | unsigned n => Head.ofLength .unsigned n
  | negative n => Head.ofLength .negative n
  | bytes bs => Head.ofLength .bytes bs.length ++ bs
  | text s => Head.ofLength .text (Bytes.ofString s).length ++ Bytes.ofString s
  | array items => Head.ofLength .array items.length ++ wireAll compact items
  | map entries => Head.ofLength .map entries.length ++ wirePairs compact entries
  | tag number item => Head.ofLength .tag number ++ wire compact item
  | simple n => Head.ofLength .simple n
  | float x => x.item compact

/-- The bytes of items in order. -/
def wireAll (compact : Bool) : List Item → Bytes
  | [] => []
  | item :: items => wire compact item ++ wireAll compact items

/-- The bytes of pairs of items in order. -/
def wirePairs (compact : Bool) : List (Item × Item) → Bytes
  | [] => []
  | (k, v) :: entries => wire compact k ++ (wire compact v ++ wirePairs compact entries)

end

theorem wirePairs_eq (compact : Bool) (entries : List (Item × Item)) :
    wirePairs compact entries = wireAll compact (unpair entries) := by
  induction entries with
  | nil => rfl
  | cons e entries ih => rw [unpair_cons, wirePairs, wireAll, wireAll, ih]

theorem wireAll_singleton (compact : Bool) (item : Item) :
    wireAll compact [item] = item.wire compact := by
  rw [wireAll, wireAll, List.append_nil]

/-! ### Room -/

mutual

/-- Every length and number of the item has room in a head, simple values are those that
there are, and a NaN is the only one. -/
def Fits : Item → Prop
  | unsigned n => n < 2 ^ 64
  | negative n => n < 2 ^ 64
  | bytes bs => bs.length < 2 ^ 64
  | text s => (Bytes.ofString s).length < 2 ^ 64
  | array items => items.length < 2 ^ 64 ∧ FitsAll items
  | map entries => entries.length < 2 ^ 64 ∧ FitsPairs entries
  | tag number item => number < 2 ^ 64 ∧ Fits item
  | simple n => n < 24
  | float x => x.quiet = x

/-- Every item of a list fits. -/
def FitsAll : List Item → Prop
  | [] => True
  | item :: items => Fits item ∧ FitsAll items

/-- Both items of every pair fit. -/
def FitsPairs : List (Item × Item) → Prop
  | [] => True
  | (k, v) :: entries => Fits k ∧ Fits v ∧ FitsPairs entries

end

theorem fitsPairs_iff (entries : List (Item × Item)) : FitsPairs entries ↔ FitsAll (unpair entries) := by
  induction entries with
  | nil => simp [FitsPairs, FitsAll]
  | cons e entries ih => rw [unpair_cons, FitsPairs, FitsAll, FitsAll, ih]

end Item

end CborGraph
