import CborGraph.Proofs.Numeral

/-!
# Reading integers of any size

`Bytes.mulAdd` calculates on the bytes of a numeral, from the last to the first, as one does by
hand: what is carried from byte to byte is always a byte itself, so no sum leaves its 32 bits
and nothing is lost, `Bytes.toNat_mulAdd`. An integer read from a literal is therefore the number that
the literal stands for: `BigInt.toInt_of_parse`.
-/

namespace CborGraph

namespace Bytes

/-! ### Multiplying and adding -/

theorem toNat_shiftRight_eight (v : UInt32) : (v >>> 8).toNat = v.toNat / 256 := by
  rw [UInt32.toNat_shiftRight, show (8 : UInt32).toNat % 32 = 8 from rfl, Nat.shiftRight_eq_div_pow]

/-- The last byte of a number, and what is carried. -/
theorem carry_add_last (v : UInt32) : (v >>> 8).toNat * 256 + v.toUInt8.toNat = v.toNat := by
  rw [toNat_shiftRight_eight, UInt32.toNat_toUInt8]
  exact Nat.div_add_mod' v.toNat 256

/-- One byte is multiplied, and what was carried is added: the sum has room in 32 bits, and what is
carried further is a byte again. -/
theorem toNat_scaleByte (b mul : UInt8) {carry : UInt32} (h : carry.toNat < 256) :
    (b.toUInt32 * mul.toUInt32 + carry).toNat = b.toNat * mul.toNat + carry.toNat ∧
      b.toNat * mul.toNat + carry.toNat < 256 * 256 := by
  have hb : b.toNat < 256 := b.toNat_lt
  have hm : mul.toNat < 256 := mul.toNat_lt
  have hprod : b.toNat * mul.toNat ≤ 255 * 255 :=
    Nat.mul_le_mul (Nat.le_of_lt_succ hb) (Nat.le_of_lt_succ hm)
  refine ⟨?_, by omega⟩
  rw [UInt32.toNat_add, UInt32.toNat_mul, UInt8.toNat_toUInt32, UInt8.toNat_toUInt32]
  omega

theorem length_scale (mul : UInt8) (carry : UInt32) (bs : Bytes) :
    (scale mul carry bs).2.length = bs.length := by
  induction bs with
  | nil => rfl
  | cons b bs ih => rw [scale, List.length_cons, List.length_cons, ih]

/-- **What is carried is always a byte.** -/
theorem carry_scale_lt (mul : UInt8) {carry : UInt32} (h : carry.toNat < 256) (bs : Bytes) :
    (scale mul carry bs).1.toNat < 256 := by
  induction bs with
  | nil => exact h
  | cons b bs ih =>
    obtain ⟨hsum, hlt⟩ := toNat_scaleByte b mul ih
    rw [scale, toNat_shiftRight_eight, hsum]
    exact Nat.div_lt_of_lt_mul hlt

/-- **The product and what is carried out of it** are the number times `mul`, and what was carried
in. -/
theorem toNat_scale (mul : UInt8) {carry : UInt32} (h : carry.toNat < 256) (bs : Bytes) :
    (scale mul carry bs).1.toNat * 256 ^ bs.length + toNat (scale mul carry bs).2 =
      toNat bs * mul.toNat + carry.toNat := by
  induction bs with
  | nil => simp [scale]
  | cons b bs ih =>
    obtain ⟨hsum, _⟩ := toNat_scaleByte b mul (carry_scale_lt mul h bs)
    have hsplit := carry_add_last (b.toUInt32 * mul.toUInt32 + (scale mul carry bs).1)
    rw [hsum] at hsplit
    rw [scale, toNat_cons, length_scale, List.length_cons, toNat_cons, Nat.pow_succ']
    generalize 256 ^ bs.length = width at ih
    calc _ = ((b.toUInt32 * mul.toUInt32 + (scale mul carry bs).1) >>> 8).toNat * 256 * width +
          (b.toUInt32 * mul.toUInt32 + (scale mul carry bs).1).toUInt8.toNat * width +
          toNat (scale mul carry bs).2 := by ring
      _ = (b.toNat * mul.toNat + (scale mul carry bs).1.toNat) * width +
          toNat (scale mul carry bs).2 := by rw [← Nat.add_mul, hsplit]
      _ = b.toNat * width * mul.toNat + ((scale mul carry bs).1.toNat * width +
          toNat (scale mul carry bs).2) := by ring
      _ = (b.toNat * width + toNat bs) * mul.toNat + carry.toNat := by
        rw [ih]
        ring

/-- A carry written before a numeral counts for as much as the width of the numeral says. -/
theorem toNat_prependCarry {width : Nat} {carry : UInt32} (h : carry.toNat < 256 ^ width) (bs : Bytes) :
    toNat (prependCarry width carry bs) = carry.toNat * 256 ^ bs.length + toNat bs := by
  induction width generalizing carry bs with
  | zero =>
    have h0 : carry.toNat = 0 := by simpa using h
    rw [prependCarry, h0, Nat.zero_mul, Nat.zero_add]
  | succ width ih =>
    rw [prependCarry]
    split
    · next h0 =>
      rw [h0]
      simp
    · have hlt : (carry >>> 8).toNat < 256 ^ width := by
        rw [toNat_shiftRight_eight]
        exact Nat.div_lt_of_lt_mul (Nat.pow_succ' ▸ h)
      rw [ih hlt, toNat_cons, List.length_cons, Nat.pow_succ', ← carry_add_last carry]
      ring

/-- **Multiplying and adding on bytes** is multiplying and adding. -/
theorem toNat_mulAdd (mul add : UInt8) (bs : Bytes) :
    toNat (mulAdd mul add bs) = toNat bs * mul.toNat + add.toNat := by
  have hadd : add.toUInt32.toNat < 256 := by
    rw [UInt8.toNat_toUInt32]
    exact add.toNat_lt
  have hscale := toNat_scale mul hadd bs
  rw [UInt8.toNat_toUInt32] at hscale
  rw [mulAdd, toNat_stripZeros, toNat_prependCarry (UInt32.toNat_lt _), length_scale, hscale]

end Bytes

/-! ### Literals -/

namespace Literal

theorem digit_lt {c : Char} (h : c.isDigit = true) : digit c < 10 := by
  have hle : c.toNat ≤ '9'.toNat := of_decide_eq_true (Bool.and_eq_true_iff.mp h).2
  have hnine : '9'.toNat = 57 := rfl
  have hzero : '0'.toNat = 48 := rfl
  rw [digit]
  omega

/-- The numeral of digits on bytes, after those that were read before. -/
theorem toNat_foldl_mulAdd (cs : List Char) (h : cs.all Char.isDigit = true) (bs : Bytes) :
    Bytes.toNat (cs.foldl (fun m c => Bytes.mulAdd 10 (UInt8.ofNat (digit c)) m) bs) =
      cs.foldl (fun n c => n * 10 + digit c) (Bytes.toNat bs) := by
  induction cs generalizing bs with
  | nil => rfl
  | cons c cs ih =>
    obtain ⟨hc, hcs⟩ := Bool.and_eq_true_iff.mp h
    have hdigit : (UInt8.ofNat (digit c)).toNat = digit c := by
      have := digit_lt hc
      rw [UInt8.toNat_ofNat']
      omega
    rw [List.foldl_cons, List.foldl_cons, ih hcs, Bytes.toNat_mulAdd, hdigit]
    rfl

end Literal

namespace BigInt

/-- **An integer made of a sign and bytes** is the number that they stand for, whatever zeros lead. -/
theorem toInt_ofBytes (negative : Bool) (magnitude : Bytes) :
    (ofBytes negative magnitude).toInt =
      if negative then -(Bytes.toNat magnitude : Int) else Bytes.toNat magnitude := by
  cases negative with
  | false => simp [toInt, ofBytes]
  | true =>
    cases h : (Bytes.stripZeros magnitude).isEmpty with
    | false => simp [toInt, ofBytes, h]
    | true =>
      have h0 : Bytes.toNat magnitude = 0 := by
        rw [← Bytes.toNat_stripZeros, List.isEmpty_iff.mp h, Bytes.toNat_nil]
      simp [toInt, ofBytes, h, h0]

@[simp] theorem toInt_ofInt (i : Int) : (ofInt i).toInt = i := by
  rw [ofInt, toInt_ofBytes, Bytes.toNat_ofNat]
  by_cases h : i < 0
  · rw [decide_eq_true h, if_pos rfl]
    omega
  · rw [decide_eq_false h, if_neg Bool.false_ne_true]
    omega

/-- Digits are read as the number that they stand for. -/
theorem toInt_ofDigits (negative : Bool) {digits : List Char} (h : digits.all Char.isDigit = true) :
    (ofDigits negative digits).toInt =
      if negative then -(Literal.numeral digits : Int) else Literal.numeral digits := by
  rw [ofDigits, toInt_ofBytes, Literal.toNat_foldl_mulAdd digits h]
  rfl

/-- **A literal that is accepted is a sign and digits**, and it is read as the number that the digits
stand for, with the sign. -/
theorem toInt_of_parse {s : String} {n : BigInt} (h : parse s = .ok n) {negative : Bool}
    {digits : List Char} (hs : Literal.sign s.toList = (negative, digits)) :
    n.toInt = if negative then -(Literal.numeral digits : Int) else Literal.numeral digits := by
  rw [parse, ofChars?, hs] at h
  by_cases hnumeral : Literal.isNumeral digits = true
  · simp only [if_pos hnumeral] at h
    cases h
    exact toInt_ofDigits negative (Bool.and_eq_true_iff.mp hnumeral).2
  · simp only [if_neg hnumeral] at h
    cases h

end BigInt

end CborGraph
