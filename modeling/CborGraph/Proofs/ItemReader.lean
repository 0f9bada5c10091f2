import CborGraph.Proofs.Item

/-!
# Reading data items

A reader of data items as the format defines them: arguments of any width, strings, arrays
and maps with a length or with a break at their end, and the three formats of floats. With
`preferred` set it accepts heads in the shortest form only, floats apart, and no breaks.

Main statement: `Item.parse_wire`, an item that was written is read back, whatever follows
it, by either reader. So no item that was written is the start of another,
`Item.eq_of_wire_append`.

The first argument of `Item.read` bounds the nesting of items. There are at least as many
bytes as levels, so `Item.parse` reads every item that there is.
-/

namespace CborGraph

namespace Bytes

/-- The text with these bytes in UTF-8. -/
def text? (bs : Bytes) : Option String := String.fromUTF8? ⟨bs.toArray⟩

@[simp] theorem text?_ofString (s : String) : text? (ofString s) = some s := by
  have h : (⟨(ofString s).toArray⟩ : ByteArray) = s.toByteArray := by simp [ofString]
  rw [text?, h, String.fromUTF8?, dif_pos s.isValidUTF8]
  rfl

end Bytes

namespace Item

/-- The item of a head of the last major type: a simple value or a float. -/
def ofSimple? (h : Head.Reading) : Option Item :=
  if h.info < 24 then some (simple h.argument)
  else if h.info = 24 then if 32 ≤ h.argument then some (simple h.argument) else none
  else if h.info = 25 then some (float (Binary64.quiet ⟨UInt64.ofNat (Format.half.widen h.argument)⟩))
  else if h.info = 26 then
    some (float (Binary64.quiet ⟨UInt64.ofNat (Format.single.widen h.argument)⟩))
  else if h.info = 27 then some (float (Binary64.quiet ⟨UInt64.ofNat h.argument⟩))
  else none

/-! ### Parts

`part` reads one item. -/

section

variable (part : Bytes → Option (Item × Bytes))

/-- So many items. -/
def times : Nat → Bytes → Option (List Item × Bytes)
  | 0, bs => some ([], bs)
  | n + 1, bs => do
    let (item, bs) ← part bs
    let (items, bs) ← times n bs
    some (item :: items, bs)

/-- Items up to a break, if there are fewer than `limit`. -/
def untilBreak (limit : Nat) (bs : Bytes) : Option (List Item × Bytes) :=
  match limit, bs with
  | 0, _ => none
  | _, [] => none
  | limit + 1, b :: bs =>
    if b = 0xFF then some ([], bs)
    else do
      let (item, bs) ← part (b :: bs)
      let (items, bs) ← untilBreak limit bs
      some (item :: items, bs)

/-- The item of a head with an argument of its own. -/
def ofDefinite (h : Head.Reading) (bs : Bytes) : Option (Item × Bytes) :=
  match h.major with
  | .unsigned => some (unsigned h.argument, bs)
  | .negative => some (negative h.argument, bs)
  | .bytes => (Bytes.split? h.argument bs).map fun (content, bs) => (bytes content, bs)
  | .text => do
    let (content, bs) ← Bytes.split? h.argument bs
    let s ← content.text?
    some (text s, bs)
  | .array => (times part h.argument bs).map fun (items, bs) => (array items, bs)
  | .map => (times part (2 * h.argument) bs).map fun (items, bs) => (map (pairUp items), bs)
  | .tag => (part bs).map fun (item, bs) => (tag h.argument item, bs)
  | .simple => (ofSimple? h).map fun item => (item, bs)

/-- The byte strings that the pieces of a string are. -/
def byteChunk? : Item → Option Bytes
  | bytes bs => some bs
  | _ => none

/-- The texts that the pieces of a text are. -/
def textChunk? : Item → Option String
  | text s => some s
  | _ => none

/-- A piece of a string, which has a length of its own. -/
def chunk (bs : Bytes) : Option (Item × Bytes) := do
  let (h, bs) ← Head.read? bs
  if h.isIndefinite then none else ofDefinite part h bs

/-- The item of a head that announces a break. Integers, tags and simple values have no
such form. -/
def ofIndefinite (major : Major) (bs : Bytes) : Option (Item × Bytes) :=
  match major with
  | .bytes => do
    let (items, bs) ← untilBreak (chunk part) bs.length bs
    let pieces ← items.mapM byteChunk?
    some (bytes pieces.flatten, bs)
  | .text => do
    let (items, bs) ← untilBreak (chunk part) bs.length bs
    let pieces ← items.mapM textChunk?
    some (text (String.join pieces), bs)
  | .array => (untilBreak part bs.length bs).map fun (items, bs) => (array items, bs)
  | .map => do
    let (items, bs) ← untilBreak part bs.length bs
    if items.length % 2 = 0 then some (map (pairUp items), bs) else none
  | _ => none

end

/-- The item at the start of a byte string, and what follows it. -/
def read (preferred : Bool) : Nat → Bytes → Option (Item × Bytes)
  | 0, _ => none
  | depth + 1, bs => do
    let (h, bs) ← Head.read? bs
    if preferred && !h.isPreferred && h.major != .simple then none
    else if h.isIndefinite then ofIndefinite (read preferred depth) h.major bs
    else ofDefinite (read preferred depth) h bs

/-- The item at the start of a byte string, and what follows it. -/
def parse (preferred : Bool) (bs : Bytes) : Option (Item × Bytes) := read preferred bs.length bs

/-! ### What was written is read back -/

/-- After a head that was written comes the item that it announces. -/
theorem read_ofLength (preferred : Bool) (depth : Nat) (major : Major) {n : Nat} (hn : n < 2 ^ 64)
    (bs : Bytes) :
    read preferred (depth + 1) (Head.ofLength major n ++ bs) =
      ofDefinite (read preferred depth) ⟨major, Head.info n, n⟩ bs := by
  have hword : (UInt64.ofNat n).toNat = n := UInt64.toNat_ofNat_of_lt' hn
  have hinfo : Head.info n ≠ 31 := by
    have := Head.info_lt n
    omega
  rw [read, Head.ofLength, Head.read?_bytes, hword]
  simp [Head.isPreferred_info, Head.Reading.isIndefinite, hinfo]

/-- A head of the last major type that is followed by bytes of its own. -/
theorem read_wide (preferred : Bool) (depth : Nat) (info : UInt8) {bits : Nat} (h₁ : 24 ≤ info.toNat)
    (h₂ : info.toNat < 28) (hb : bits < 256 ^ 2 ^ (info.toNat - 24)) (rest : Bytes) :
    read preferred (depth + 1)
        (Head.first .simple info :: Bytes.fixed (2 ^ (info.toNat - 24)) bits ++ rest) =
      (ofSimple? ⟨.simple, info.toNat, bits⟩).map fun item => (item, rest) := by
  have hinfo : info.toNat ≠ 31 := by omega
  rw [read, Head.read?_fixed .simple info h₁ h₂ hb]
  simp [Head.Reading.isIndefinite, hinfo, ofDefinite]

theorem read_half (preferred : Bool) (depth : Nat) {bits : Nat} (hb : bits < 2 ^ 16) (rest : Bytes) :
    read preferred (depth + 1) (Binary64.halfItem bits ++ rest) =
      some (float (Binary64.quiet ⟨UInt64.ofNat (Format.half.widen bits)⟩), rest) :=
  read_wide preferred depth 25 (by decide) (by decide) hb rest

theorem read_single (preferred : Bool) (depth : Nat) {bits : Nat} (hb : bits < 2 ^ 32) (rest : Bytes) :
    read preferred (depth + 1) (Binary64.singleItem bits ++ rest) =
      some (float (Binary64.quiet ⟨UInt64.ofNat (Format.single.widen bits)⟩), rest) :=
  read_wide preferred depth 26 (by decide) (by decide) hb rest

theorem read_double (preferred : Bool) (depth : Nat) {bits : Nat} (hb : bits < 2 ^ 64) (rest : Bytes) :
    read preferred (depth + 1) (Binary64.doubleItem bits ++ rest) =
      some (float (Binary64.quiet ⟨UInt64.ofNat bits⟩), rest) :=
  read_wide preferred depth 27 (by decide) (by decide) hb rest

/-- **A double is read back** from whichever of the three formats it was written in. -/
theorem read_float (preferred compact : Bool) (depth : Nat) {x : Binary64} (hx : x.quiet = x)
    (rest : Bytes) :
    read preferred (depth + 1) (x.item compact ++ rest) = some (float x, rest) := by
  rw [Binary64.item]
  split
  · next hnan =>
    have hx' : x = Binary64.nan := by
      rw [← hx, Binary64.quiet, if_pos hnan]
    rw [hx', Binary64.nanItem, read_half preferred depth (by decide)]
    rfl
  · split
    · next hinf =>
      rw [Binary64.infinityItem, read_half preferred depth (by split <;> decide),
        Binary64.eq_of_isInfinite hinf]
      cases x.isNegative <;> rfl
    · split
      · next p hp =>
        split at hp
        · rw [read_half preferred depth (Format.half.narrow?_lt hp), Binary64.ofNat_widen hp, hx]
        · cases hp
      · split
        · next p hp =>
          split at hp
          · rw [read_single preferred depth (Format.single.narrow?_lt hp), Binary64.ofNat_widen hp, hx]
          · cases hp
        · rw [read_double preferred depth x.bits.toNat_lt, UInt64.ofNat_toNat, hx]

theorem length_item_pos (compact : Bool) (x : Binary64) : 0 < (x.item compact).length := by
  rw [Binary64.item]
  split
  · exact Nat.succ_pos _
  · split
    · exact Nat.succ_pos _
    · split
      · exact Nat.succ_pos _
      · split <;> exact Nat.succ_pos _

/-- An item that begins with a head is read with one level more than what follows. -/
theorem exists_depth {major : Major} {n depth : Nat} {bs : Bytes}
    (h : (Head.ofLength major n ++ bs).length ≤ depth) : ∃ d, depth = d + 1 ∧ bs.length ≤ d := by
  have hpos : 0 < (Head.ofLength major n).length := Head.length_bytes_pos ..
  rw [List.length_append] at h
  exact ⟨depth - 1, by omega, by omega⟩

mutual

/-- **What was written is read back**, by either reader and whatever follows it. -/
theorem read_wire (preferred compact : Bool) (rest : Bytes) :
    ∀ (item : Item) (depth : Nat), item.Fits → (item.wire compact).length ≤ depth →
      read preferred depth (item.wire compact ++ rest) = some (item, rest)
  | unsigned n, depth, hf, hd => by
    rw [wire, ← List.append_nil (Head.ofLength _ _)] at hd
    obtain ⟨d, rfl, -⟩ := exists_depth hd
    rw [wire, read_ofLength preferred d .unsigned hf, ofDefinite]
  | negative n, depth, hf, hd => by
    rw [wire, ← List.append_nil (Head.ofLength _ _)] at hd
    obtain ⟨d, rfl, -⟩ := exists_depth hd
    rw [wire, read_ofLength preferred d .negative hf, ofDefinite]
  | bytes bs, depth, hf, hd => by
    rw [wire] at hd
    obtain ⟨d, rfl, -⟩ := exists_depth hd
    rw [wire, List.append_assoc, read_ofLength preferred d .bytes hf, ofDefinite,
      Bytes.split?_append rfl]
    rfl
  | text s, depth, hf, hd => by
    rw [wire] at hd
    obtain ⟨d, rfl, -⟩ := exists_depth hd
    rw [wire, List.append_assoc, read_ofLength preferred d .text hf, ofDefinite,
      Bytes.split?_append rfl]
    simp
  | array items, depth, hf, hd => by
    rw [wire] at hd
    obtain ⟨d, rfl, hd'⟩ := exists_depth hd
    rw [wire, List.append_assoc, read_ofLength preferred d .array hf.1, ofDefinite,
      times_wireAll preferred compact rest items d hf.2 hd']
    rfl
  | map entries, depth, hf, hd => by
    rw [wire] at hd
    obtain ⟨d, rfl, hd'⟩ := exists_depth hd
    rw [wire, List.append_assoc, read_ofLength preferred d .map hf.1]
    simp only [ofDefinite, times_wirePairs preferred compact rest entries d hf.2 hd', Option.map_some,
      pairUp_unpair]
  | tag number item, depth, hf, hd => by
    rw [wire] at hd
    obtain ⟨d, rfl, hd'⟩ := exists_depth hd
    rw [wire, List.append_assoc, read_ofLength preferred d .tag hf.1, ofDefinite,
      read_wire preferred compact rest item d hf.2 hd']
    rfl
  | simple n, depth, hf, hd => by
    rw [Fits] at hf
    rw [wire, ← List.append_nil (Head.ofLength _ _)] at hd
    obtain ⟨d, rfl, -⟩ := exists_depth hd
    rw [wire, read_ofLength preferred d .simple (by omega), ofDefinite]
    simp [ofSimple?, Head.info, hf]
  | float x, depth, hf, hd => by
    rw [wire] at hd
    have hpos := length_item_pos compact x
    obtain ⟨d, rfl⟩ := Nat.exists_eq_succ_of_ne_zero (show depth ≠ 0 by omega)
    rw [wire, read_float preferred compact d hf]

theorem times_wireAll (preferred compact : Bool) (rest : Bytes) :
    ∀ (items : List Item) (depth : Nat), FitsAll items → (wireAll compact items).length ≤ depth →
      times (read preferred depth) items.length (wireAll compact items ++ rest) = some (items, rest)
  | [], _, _, _ => rfl
  | item :: items, depth, hf, hd => by
    rw [wireAll, List.length_append] at hd
    rw [wireAll, List.append_assoc, List.length_cons, times,
      read_wire preferred compact _ item depth hf.1 (by omega)]
    simp only [Option.bind_eq_bind, Option.bind_some]
    rw [times_wireAll preferred compact rest items depth hf.2 (by omega)]
    rfl

theorem times_wirePairs (preferred compact : Bool) (rest : Bytes) :
    ∀ (entries : List (Item × Item)) (depth : Nat), FitsPairs entries →
      (wirePairs compact entries).length ≤ depth →
      times (read preferred depth) (2 * entries.length) (wirePairs compact entries ++ rest) =
        some (unpair entries, rest)
  | [], _, _, _ => rfl
  | (k, v) :: entries, depth, hf, hd => by
    rw [wirePairs, List.length_append, List.length_append] at hd
    rw [wirePairs, List.append_assoc, List.append_assoc, List.length_cons, Nat.mul_add, times,
      read_wire preferred compact _ k depth hf.1 (by omega)]
    simp only [Option.bind_eq_bind, Option.bind_some]
    rw [times, read_wire preferred compact _ v depth hf.2.1 (by omega)]
    simp only [Option.bind_eq_bind, Option.bind_some]
    rw [times_wirePairs preferred compact rest entries depth hf.2.2 (by omega)]
    rfl

end

/-- **What was written is read back**: one item and exactly the bytes that follow it. -/
theorem parse_wire (preferred compact : Bool) {item : Item} (h : item.Fits) (rest : Bytes) :
    parse preferred (item.wire compact ++ rest) = some (item, rest) :=
  read_wire preferred compact rest item _ h (by rw [List.length_append]; omega)

/-- **No item that was written is the start of another**, in whichever formats floats are. -/
theorem eq_of_wire_append {compact compact' : Bool} {item other : Item} (h : item.Fits)
    (h' : other.Fits) {rest : Bytes} (heq : item.wire compact ++ rest = other.wire compact') :
    item = other ∧ rest = [] := by
  have hread := parse_wire false compact h rest
  have hread' := parse_wire false compact' h' []
  rw [List.append_nil, ← heq, hread] at hread'
  cases hread'
  exact ⟨rfl, rfl⟩

end Item

end CborGraph
