import CborGraph.Proofs.Magnitude

/-!
# Multiplying and adding by hand

A magnitude is multiplied by a byte and a byte is added, on its bytes from the last to the first.
`Bytes.Carries` says how things stand when some bytes are done: what is carried is a byte, it and
the bytes that were put out are the product so far, and the next sum has room in 32 bits. So what is
carried out of the first byte is one byte more at most, however many more are looked for, and only
the multiplier zero makes leading zeros.

Main statement: `Bytes.mulAdd_exact`.
-/

namespace CborGraph

namespace Bytes

/-- When the bytes are done, from the last to the first. -/
structure Carries (mul add : UInt8) (bs : Bytes) : Prop where
  /-- What is carried is a byte. -/
  carry_lt : (scale mul add.toUInt32 bs).1.toNat < 256
  /-- It is carried to the place before as many bytes as there were, and nothing is lost. -/
  value : (scale mul add.toUInt32 bs).1.toNat * 256 ^ bs.length + toNat (scale mul add.toUInt32 bs).2 =
    toNat bs * mul.toNat + add.toNat
  /-- As many bytes are put out. -/
  length : (scale mul add.toUInt32 bs).2.length = bs.length
  /-- With any byte next, product and sum have room in 32 bits, and are calculated as they are. -/
  room (b : UInt8) : b.toNat * mul.toNat + (scale mul add.toUInt32 bs).1.toNat < 2 ^ 32 ∧
    (b.toUInt32 * mul.toUInt32 + (scale mul add.toUInt32 bs).1).toNat =
      b.toNat * mul.toNat + (scale mul add.toUInt32 bs).1.toNat

/-- **Nothing overflows**, whatever bytes are done. -/
theorem carries (mul add : UInt8) (bs : Bytes) : Carries mul add bs := by
  have hadd : add.toUInt32.toNat < 256 := by
    rw [UInt8.toNat_toUInt32]
    exact add.toNat_lt
  have hcarry := carry_scale_lt mul hadd bs
  refine ⟨hcarry, ?_, length_scale mul _ bs, fun b => ?_⟩
  · rw [toNat_scale mul hadd bs, UInt8.toNat_toUInt32]
  · obtain ⟨hsum, hlt⟩ := toNat_scaleByte b mul hcarry
    exact ⟨by omega, hsum⟩

/-- A carry that is a byte is written as that byte, and none if it is zero. -/
theorem prependCarry_of_lt {carry : UInt32} (h : carry.toNat < 256) {width : Nat} (hw : width ≠ 0)
    (bs : Bytes) : prependCarry width carry bs = if carry = 0 then bs else carry.toUInt8 :: bs := by
  obtain ⟨width, rfl⟩ := Nat.exists_eq_succ_of_ne_zero hw
  rw [prependCarry]
  split
  · rfl
  · have hrest : carry >>> 8 = 0 := by
      rw [← UInt32.toNat_inj, toNat_shiftRight_eight, Nat.div_eq_of_lt h]
      rfl
    rw [hrest]
    cases width with
    | zero => rfl
    | succ width => rw [prependCarry, if_pos rfl]

theorem toNat_toUInt8_of_lt {carry : UInt32} (h : carry.toNat < 256) :
    carry.toUInt8.toNat = carry.toNat := by
  rw [UInt32.toNat_toUInt8]
  omega

/-- The bytes before leading zeros are stripped. -/
def unstripped (mul add : UInt8) (bs : Bytes) : Bytes :=
  prependCarry 4 (scale mul add.toUInt32 bs).1 (scale mul add.toUInt32 bs).2

/-- **A multiplier that is not zero makes no leading zeros**: if nothing is carried out of the first
byte, the product is no less than the number, and takes as many bytes. -/
theorem head?_unstripped {mul : UInt8} (hmul : mul ≠ 0) (add : UInt8) {bs : Bytes}
    (hbs : bs.head? ≠ some 0) : (unstripped mul add bs).head? ≠ some 0 := by
  obtain ⟨hcarry, hvalue, hlen, -⟩ := carries mul add bs
  rw [unstripped, prependCarry_of_lt hcarry (by decide)]
  generalize scale mul add.toUInt32 bs = r at *
  obtain ⟨carry, out⟩ := r
  simp only at hcarry hvalue hlen ⊢
  split
  · next h0 =>
    intro hzero
    obtain ⟨out, rfl⟩ := List.head?_eq_some_iff.mp hzero
    cases bs with
    | nil => cases hlen
    | cons b bs =>
      have hb : b ≠ 0 := by simpa using hbs
      have hleast := pow_le_toNat hb bs
      have hpos : 0 < mul.toNat := Nat.pos_of_ne_zero fun h => hmul (UInt8.toNat_inj.mp h)
      have hmono : toNat (b :: bs) ≤ toNat (b :: bs) * mul.toNat := Nat.le_mul_of_pos_right _ hpos
      have hlt := toNat_lt out
      rw [List.length_cons, List.length_cons, Nat.succ_inj] at hlen
      rw [h0, toNat_cons 0 out, hlen] at hvalue
      rw [hlen] at hlt
      simp at hvalue
      omega
  · next h0 =>
    rw [List.head?_cons, Ne, Option.some_inj]
    intro hzero
    have hnat := toNat_toUInt8_of_lt hcarry
    rw [hzero] at hnat
    exact h0 (UInt32.toNat_inj.mp hnat.symm)

theorem mulAdd_eq_nil_iff (mul add : UInt8) (bs : Bytes) :
    mulAdd mul add bs = [] ↔ toNat bs * mul.toNat + add.toNat = 0 := by
  have hhead : (mulAdd mul add bs).head? ≠ some 0 := head?_stripZeros _
  rw [← toNat_mulAdd, toNat_eq_zero hhead]

/-- **Multiplying and adding is exact on magnitudes of any length.** At every byte what is carried is
a byte, and products and sums have room in 32 bits; what is carried out of the first byte is written
whole in one byte more, or in none if it is zero. The magnitude then is the shortest numeral of the
product and sum, with no byte for zero. Leading zeros are there to be stripped only if the multiplier is
zero. -/
theorem mulAdd_exact (mul add : UInt8) {bs : Bytes} (hbs : bs.head? ≠ some 0) :
    (∀ tail, tail <:+ bs → Carries mul add tail) ∧
    (∀ width, width ≠ 0 →
      let r := scale mul add.toUInt32 bs
      prependCarry width r.1 r.2 = (if r.1 = 0 then r.2 else r.1.toUInt8 :: r.2) ∧
        r.1.toUInt8.toNat = r.1.toNat) ∧
    toNat (mulAdd mul add bs) = toNat bs * mul.toNat + add.toNat ∧
    (mulAdd mul add bs).head? ≠ some 0 ∧
    (mulAdd mul add bs = [] ↔ toNat bs * mul.toNat + add.toNat = 0) ∧
    mulAdd mul add bs = ofNat (toNat bs * mul.toNat + add.toNat) ∧
    (mul ≠ 0 → mulAdd mul add bs = unstripped mul add bs) := by
  have hcarry := (carries mul add bs).carry_lt
  have hhead : (mulAdd mul add bs).head? ≠ some 0 := head?_stripZeros _
  have hvalue := toNat_mulAdd mul add bs
  refine ⟨fun tail _ => carries mul add tail,
    fun width hw => ⟨prependCarry_of_lt hcarry hw _, toNat_toUInt8_of_lt hcarry⟩, hvalue, hhead,
    mulAdd_eq_nil_iff mul add bs, ?_, fun hmul => ?_⟩
  · rw [← hvalue, ofNat_toNat hhead]
  · exact stripZeros_of_head (head?_unstripped hmul add hbs)

/-- The greatest magnitude of two bytes times 255, with 255 added: at both bytes 255 is carried, so a
third byte is written before them. -/
theorem mulAdd_exact_greatest :
    let bs : Bytes := [255, 255]
    bs.head? ≠ some 0 ∧ scale 255 (255 : UInt8).toUInt32 bs = (255, [0, 0]) ∧
      mulAdd 255 255 bs = [255, 0, 0] ∧
      toNat (mulAdd 255 255 bs) = toNat bs * (255 : UInt8).toNat + (255 : UInt8).toNat := by
  intro bs
  have hbs : bs.head? ≠ some 0 := by decide
  obtain ⟨-, -, hvalue, -⟩ := mulAdd_exact 255 255 hbs
  exact ⟨hbs, by decide, by decide, hvalue⟩

end Bytes

end CborGraph
