import CborGraph.BigInt
import Mathlib.Algebra.Order.Ring.Nat
import Mathlib.Tactic.Ring

/-!
# Byte strings as numerals

What a byte string stands for, and that the numeral without leading zeros is the only
one of its number: `ofNat_toNat`. From it follows that the argument of an integer kept in
bytes is the numeral of the argument of the integer itself, `BigInt.argument_eq`.
-/

namespace CborGraph

namespace Bytes

@[simp] theorem toNat_nil : toNat [] = 0 := rfl

private theorem foldl_digits (bs : Bytes) (n : Nat) :
    bs.foldl (fun n b => n * 256 + b.toNat) n = n * 256 ^ bs.length + toNat bs := by
  induction bs generalizing n with
  | nil => simp
  | cons b bs ih =>
    have hcons : toNat (b :: bs) = bs.foldl (fun n b => n * 256 + b.toNat) (0 * 256 + b.toNat) := rfl
    rw [List.foldl_cons, ih, hcons, ih, List.length_cons]
    ring

theorem toNat_cons (b : UInt8) (bs : Bytes) :
    toNat (b :: bs) = b.toNat * 256 ^ bs.length + toNat bs := by
  rw [toNat, List.foldl_cons, foldl_digits]
  simp

theorem toNat_lt (bs : Bytes) : toNat bs < 256 ^ bs.length := by
  induction bs with
  | nil => simp
  | cons b bs ih =>
    have hb : b.toNat < 256 := b.toNat_lt
    have : b.toNat * 256 ^ bs.length + 256 ^ bs.length ≤ 256 * 256 ^ bs.length := by
      rw [← Nat.succ_mul]
      exact Nat.mul_le_mul_right _ hb
    rw [toNat_cons, List.length_cons, Nat.pow_succ']
    omega

/-- A numeral in a given width stands for the last digits of its number. -/
theorem toNat_fixed (width n : Nat) : toNat (fixed width n) = n % 256 ^ width := by
  induction width with
  | zero => simp [fixed, Nat.mod_one]
  | succ width ih =>
    have hsplit : n % 256 ^ (width + 1) = n % 256 ^ width + 256 ^ width * (n / 256 ^ width % 256) :=
      Nat.mod_mul
    rw [fixed, toNat_cons, ih, length_fixed, UInt8.toNat_ofNat', hsplit, Nat.mul_comm, Nat.add_comm]

/-! ### Leading zeros -/

@[simp] theorem toNat_stripZeros (bs : Bytes) : toNat (stripZeros bs) = toNat bs := by
  induction bs with
  | nil => rfl
  | cons b bs ih =>
    rw [stripZeros, List.dropWhile_cons]
    split
    · next h =>
      have hb : b = 0 := by simpa using h
      rw [show List.dropWhile (· == 0) bs = stripZeros bs from rfl, ih, toNat_cons, hb]
      simp
    · rfl

/-- A string with no leading zero is left as it is. -/
theorem stripZeros_of_head {bs : Bytes} (h : bs.head? ≠ some 0) : stripZeros bs = bs := by
  cases bs with
  | nil => rfl
  | cons b bs =>
    have hb : b ≠ 0 := by simpa using h
    simp [stripZeros, hb]

/-- With no leading zero the first digit counts. -/
theorem pow_le_toNat {b : UInt8} (h : b ≠ 0) (bs : Bytes) :
    256 ^ bs.length ≤ toNat (b :: bs) := by
  have hb : 0 < b.toNat := by
    rw [Nat.pos_iff_ne_zero]
    exact fun h0 => h (UInt8.toNat_inj.mp h0)
  rw [toNat_cons]
  exact le_trans (Nat.le_mul_of_pos_left _ hb) (Nat.le_add_right _ _)

theorem toNat_eq_zero {bs : Bytes} (h : bs.head? ≠ some 0) : toNat bs = 0 ↔ bs = [] := by
  constructor
  · intro h0
    cases bs with
    | nil => rfl
    | cons b bs =>
      have := pow_le_toNat (show b ≠ 0 by simpa using h) bs
      have := Nat.pow_pos (n := bs.length) (show 0 < 256 by decide)
      omega
  · rintro rfl
    rfl

/-- Strings of one length that stand for one number are the same. -/
theorem eq_of_toNat_eq_of_length_eq {bs cs : Bytes} (hl : bs.length = cs.length)
    (h : toNat bs = toNat cs) : bs = cs := by
  induction bs generalizing cs with
  | nil => exact (List.length_eq_zero_iff.mp hl.symm).symm
  | cons b bs ih =>
    cases cs with
    | nil => simp at hl
    | cons c cs =>
      have hl' : bs.length = cs.length := by simpa using hl
      rw [toNat_cons, toNat_cons, hl'] at h
      have hb := toNat_lt bs
      have hc := toNat_lt cs
      rw [hl'] at hb
      -- Both tails are less than the weight of the first digit, so division separates them.
      have hbc : b.toNat = c.toNat := by
        have := congrArg (· / 256 ^ cs.length) h
        simpa [Nat.mul_comm _ (256 ^ cs.length), Nat.mul_add_div, Nat.div_eq_of_lt hb,
          Nat.div_eq_of_lt hc] using this
      rw [hbc] at h
      rw [UInt8.toNat_inj.mp hbc, ih hl' (Nat.add_left_cancel h)]

/-- Strings with no leading zero that stand for one number are the same. -/
theorem eq_of_toNat_eq {bs cs : Bytes} (hb : bs.head? ≠ some 0) (hc : cs.head? ≠ some 0)
    (h : toNat bs = toNat cs) : bs = cs := by
  refine eq_of_toNat_eq_of_length_eq ?_ h
  cases bs with
  | nil => rw [(toNat_eq_zero hc).mp h.symm]
  | cons b bs =>
    cases cs with
    | nil => rw [(toNat_eq_zero hb).mp h]
    | cons c cs =>
      have hb' := pow_le_toNat (show b ≠ 0 by simpa using hb) bs
      have hc' := pow_le_toNat (show c ≠ 0 by simpa using hc) cs
      have hbl := toNat_lt (b :: bs)
      have hcl := toNat_lt (c :: cs)
      rw [h] at hb' hbl
      have h₁ := (Nat.pow_lt_pow_iff_right (by decide)).mp (lt_of_le_of_lt hb' hcl)
      have h₂ := (Nat.pow_lt_pow_iff_right (by decide)).mp (lt_of_le_of_lt hc' hbl)
      simp only [List.length_cons] at h₁ h₂ ⊢
      omega

/-! ### The least width -/

theorem lt_pow_width (n : Nat) : n < 256 ^ (n.log2 / 8 + 1) := by
  have h : n < 2 ^ (n.log2 + 1) := Nat.lt_log2_self
  refine lt_of_lt_of_le h ?_
  rw [show 256 = 2 ^ 8 from rfl, ← Nat.pow_mul]
  exact Nat.pow_le_pow_right (by decide) (by omega)

@[simp] theorem toNat_ofNat (n : Nat) : toNat (ofNat n) = n := by
  rw [ofNat, toNat_stripZeros, toNat_fixed, Nat.mod_eq_of_lt (lt_pow_width n)]

theorem head?_ofNat (n : Nat) : (ofNat n).head? ≠ some 0 := head?_stripZeros _

/-- A string with no leading zero is the numeral of its number. -/
theorem ofNat_toNat {bs : Bytes} (h : bs.head? ≠ some 0) : ofNat (toNat bs) = bs :=
  eq_of_toNat_eq (head?_ofNat _) h (toNat_ofNat _)

/-- How many digits a number has. -/
theorem length_ofNat_le_iff (n k : Nat) : (ofNat n).length ≤ k ↔ n < 256 ^ k := by
  constructor
  · intro h
    calc n = toNat (ofNat n) := (toNat_ofNat n).symm
      _ < 256 ^ (ofNat n).length := toNat_lt _
      _ ≤ 256 ^ k := Nat.pow_le_pow_right (by decide) h
  · intro h
    by_contra hk
    cases hn : ofNat n with
    | nil => simp [hn] at hk
    | cons b bs =>
      have hb : b ≠ 0 := by simpa [hn] using head?_ofNat n
      have := pow_le_toNat hb bs
      rw [← hn, toNat_ofNat] at this
      have hlt := (Nat.pow_lt_pow_iff_right (by decide)).mp (lt_of_le_of_lt this h)
      simp only [hn, List.length_cons] at hk
      omega

/-! ### One less -/

theorem length_decrement (bs : Bytes) : (decrement bs).2.length = bs.length := by
  induction bs with
  | nil => rfl
  | cons b bs ih =>
    rw [decrement]
    split
    · next h => split <;> simp_all
    · next h => simp_all

/-- The borrow out of the first byte is taken exactly if the number is zero; the result
is one less, modulo the width. -/
theorem toNat_decrement (bs : Bytes) :
    toNat (decrement bs).2 + 1 = toNat bs + if (decrement bs).1 then 256 ^ bs.length else 0 := by
  induction bs with
  | nil => rfl
  | cons b bs ih =>
    have hl := length_decrement bs
    rw [decrement]
    split
    · next out h =>
      simp only [h, if_true] at ih hl
      split
      · next hb =>
        subst hb
        rw [toNat_cons, toNat_cons, hl, List.length_cons, Nat.pow_succ]
        simp
        omega
      · next hb =>
        have hpos : 0 < b.toNat := Nat.pos_of_ne_zero fun h0 => hb (UInt8.toNat_inj.mp h0)
        have hsub : (b - 1).toNat + 1 = b.toNat := by
          have hle : (1 : UInt8) ≤ b := UInt8.le_iff_toNat_le.mpr hpos
          rw [UInt8.toNat_sub_of_le _ _ hle, show (1 : UInt8).toNat = 1 from rfl]
          omega
        rw [toNat_cons, toNat_cons, hl, ← hsub, Nat.succ_mul]
        simp
        omega
    · next out h =>
      simp only [h, if_false, Bool.false_eq_true] at ih hl
      rw [toNat_cons, toNat_cons, hl]
      simp
      omega

/-- Nothing is borrowed from a number that is not zero. -/
theorem toNat_decrement_of_pos {bs : Bytes} (h : 0 < toNat bs) :
    toNat (decrement bs).2 = toNat bs - 1 := by
  have hd := toNat_decrement bs
  have hlt := toNat_lt (decrement bs).2
  rw [length_decrement] at hlt
  split at hd <;> omega

end Bytes

namespace BigInt

/-- The unsigned number that a data item carries for an integer. -/
def argumentOf (i : Int) : Nat := (if i < 0 then -1 - i else i).toNat

theorem magnitude_pos {n : BigInt} (h : n.negative = true) : 0 < Bytes.toNat n.magnitude :=
  Nat.pos_of_ne_zero fun h0 => n.signed h ((Bytes.toNat_eq_zero n.minimal).mp h0)

/-- An integer kept in bytes is marked negative exactly if it is below zero. -/
theorem toInt_neg_iff (n : BigInt) : n.toInt < 0 ↔ n.negative = true := by
  rw [toInt]
  split
  · next h =>
    have := magnitude_pos h
    simp only [h, iff_true]
    omega
  · next h => simp [h]

theorem head?_argument (n : BigInt) : n.argument.head? ≠ some 0 := by
  rw [argument]
  split
  · exact Bytes.head?_stripZeros _
  · exact n.minimal

theorem toNat_argument (n : BigInt) : Bytes.toNat n.argument = argumentOf n.toInt := by
  rw [argument, argumentOf, toInt]
  split
  · next h =>
    have := magnitude_pos h
    rw [Bytes.toNat_stripZeros, Bytes.toNat_decrement_of_pos this, if_pos (by omega)]
    omega
  · rw [if_neg (by omega)]
    rfl

/-- **The argument of an integer kept in bytes** is the numeral of the argument of the
integer, with no leading zero. -/
theorem argument_eq (n : BigInt) : n.argument = Bytes.ofNat (argumentOf n.toInt) := by
  rw [← toNat_argument, Bytes.ofNat_toNat (head?_argument n)]

end BigInt

end CborGraph
