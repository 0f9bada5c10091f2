/-!
# Big-endian bytes

Byte strings as lists, read as base-256 numerals with the most significant byte
first. `Bytes.toNat` is the number a string stands for; `Bytes.fixed` writes a
number in a given width and `Bytes.ofNat` in the least width. `Bytes.scale` and
`Bytes.decrement` calculate on the strings themselves, from the last byte to the
first, as one does by hand.
-/

namespace CborGraph

-- Powers are those of the core library, also where others are in scope.
attribute [local instance (high)] instPowNat

/-- A byte string. -/
abbrev Bytes := List UInt8

namespace Bytes

/-- The number a byte string stands for. -/
def toNat (bs : Bytes) : Nat := bs.foldl (fun n b => n * 256 + b.toNat) 0

/-- The last `width` base-256 digits of `n`. -/
def fixed : Nat → Nat → Bytes
  | 0, _ => []
  | width + 1, n => UInt8.ofNat (n / 256 ^ width) :: fixed width n

/-- `bs` without its leading zero bytes. -/
def stripZeros (bs : Bytes) : Bytes := bs.dropWhile (· == 0)

/-- The digits of `n` with no leading zero, so none for zero. -/
def ofNat (n : Nat) : Bytes := stripZeros (fixed (n.log2 / 8 + 1) n)

/-- The bytes of a text in UTF-8. -/
def ofString (s : String) : Bytes := s.toUTF8.data.toList

theorem head?_stripZeros (bs : Bytes) : (stripZeros bs).head? ≠ some 0 := by
  intro h
  have := List.head?_dropWhile_not (· == 0) bs
  rw [show List.dropWhile (· == 0) bs = stripZeros bs from rfl, h] at this
  simp at this

theorem length_fixed (width n : Nat) : (fixed width n).length = width := by
  induction width with
  | zero => rfl
  | succ k ih => simp [fixed, ih]

/-! ### Calculating on bytes -/

/-- `bs * mul + carry` in as many bytes as `bs` has, and what is carried out of
the first byte. -/
def scale (mul : UInt8) (carry : UInt32) : Bytes → UInt32 × Bytes
  | [] => (carry, [])
  | b :: bs =>
    let (c, out) := scale mul carry bs
    let v := b.toUInt32 * mul.toUInt32 + c
    (v >>> 8, v.toUInt8 :: out)

/-- `bs` with the nonzero part of `carry` written before it, in at most `width`
bytes. -/
def prependCarry : Nat → UInt32 → Bytes → Bytes
  | 0, _, bs => bs
  | width + 1, carry, bs =>
    if carry = 0 then bs else prependCarry width (carry >>> 8) (carry.toUInt8 :: bs)

/-- The numeral of `bs * mul + add`, with no leading zero. -/
def mulAdd (mul add : UInt8) (bs : Bytes) : Bytes :=
  let (carry, out) := scale mul add.toUInt32 bs
  stripZeros (prependCarry 4 carry out)

/-- One less in as many bytes, and whether the first byte had to borrow: a zero
byte borrows and becomes `255`. -/
def decrement : Bytes → Bool × Bytes
  | [] => (true, [])
  | b :: bs =>
    match decrement bs with
    | (true, out) => if b = 0 then (true, 255 :: out) else (false, (b - 1) :: out)
    | (false, out) => (false, b :: out)

end Bytes

end CborGraph
