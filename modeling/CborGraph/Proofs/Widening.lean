import CborGraph.Binary64
import Mathlib.Algebra.Order.Ring.Nat
import Mathlib.Tactic.Ring

/-!
# Widening undoes narrowing

A finite pattern and the number of units it stands for determine each other:
`ofUnits_units` and `units_ofUnits`. So a double that a narrower format holds exactly is
got back by widening, `widen_of_narrow?`, sign and all.
-/

namespace CborGraph

namespace Format

variable (f : Format)

theorem signBit_pos : 0 < f.signBit := Nat.two_pow_pos _

theorem signBit_eq : f.signBit = 2 ^ f.exponentBits * 2 ^ f.fractionBits := Nat.pow_add ..

theorem infinity_lt_signBit : f.infinity < f.signBit := by
  rw [signBit_eq, infinity]
  refine Nat.mul_lt_mul_of_pos_right ?_ (Nat.two_pow_pos _)
  have := Nat.two_pow_pos f.exponentBits
  omega

/-- The fraction is part of the magnitude. -/
theorem magnitude_mod_fraction (bits : Nat) :
    f.magnitude bits % 2 ^ f.fractionBits = bits % 2 ^ f.fractionBits := by
  rw [magnitude, signBit_eq]
  exact Nat.mod_mul_left_mod ..

/-- The units of a pattern in two cases: fraction alone, or one and the fraction. -/
theorem units_magnitude (bits : Nat) : f.units (f.magnitude bits) = f.units bits := by
  have h : f.magnitude (f.magnitude bits) = f.magnitude bits := Nat.mod_mod ..
  simp only [units, h, magnitude_mod_fraction]

/-! ### Units and patterns -/

/-- Fewer than `2 ^ fractionBits` units reach no further than the fraction. -/
theorem excess_of_lt {k : Nat} (h : k < 2 ^ f.fractionBits) : f.excess k = 0 := by
  by_cases h0 : k = 0
  · simp [excess, h0]
  · have := (Nat.log2_lt h0).mpr h
    rw [excess]
    omega

/-- What is left of the units when those beyond the fraction are cut off: one and a
fraction. -/
theorem significand_bounds {k : Nat} (h : 2 ^ f.fractionBits ≤ k) :
    2 ^ f.fractionBits ≤ k / 2 ^ f.excess k ∧
      k / 2 ^ f.excess k < 2 * 2 ^ f.fractionBits := by
  have hk : k ≠ 0 := by
    have := Nat.two_pow_pos f.fractionBits
    omega
  have hlog : f.fractionBits ≤ k.log2 := (Nat.le_log2 hk).mpr h
  have hsum : f.fractionBits + f.excess k = k.log2 := by
    rw [excess]
    omega
  constructor
  · rw [Nat.le_div_iff_mul_le (Nat.two_pow_pos _), ← Nat.pow_add, hsum]
    exact Nat.log2_self_le hk
  · rw [Nat.div_lt_iff_lt_mul (Nat.two_pow_pos _), ← Nat.pow_succ', ← Nat.pow_add,
      show f.fractionBits + 1 + f.excess k = k.log2 + 1 by omega]
    exact Nat.lt_log2_self

/-- How far one and a fraction reach once they are shifted. -/
theorem excess_shift {q j : Nat} (h₁ : 2 ^ f.fractionBits ≤ q) (h₂ : q < 2 * 2 ^ f.fractionBits) :
    f.excess (q * 2 ^ j) = j := by
  have hq : q * 2 ^ j ≠ 0 := by
    have := Nat.two_pow_pos f.fractionBits
    have := Nat.two_pow_pos j
    exact Nat.mul_ne_zero (by omega) (by omega)
  have hlo : f.fractionBits + j ≤ (q * 2 ^ j).log2 := by
    rw [Nat.le_log2 hq, Nat.pow_add]
    exact Nat.mul_le_mul_right _ h₁
  have hhi : (q * 2 ^ j).log2 < f.fractionBits + 1 + j := by
    rw [Nat.log2_lt hq, Nat.pow_add, Nat.pow_succ']
    exact Nat.mul_lt_mul_of_pos_right h₂ (Nat.two_pow_pos _)
  rw [excess]
  omega

/-- The pattern of the units of a pattern is the pattern without its sign. -/
theorem ofUnits_units (bits : Nat) : f.ofUnits (f.units bits) = f.magnitude bits := by
  have hsplit := Nat.div_add_mod (f.magnitude bits) (2 ^ f.fractionBits)
  have hfraction : bits % 2 ^ f.fractionBits < 2 ^ f.fractionBits := Nat.mod_lt _ (Nat.two_pow_pos _)
  rw [magnitude_mod_fraction] at hsplit
  by_cases h0 : f.magnitude bits / 2 ^ f.fractionBits = 0
  · have hu : f.units bits = bits % 2 ^ f.fractionBits := by simp [units, h0]
    rw [ofUnits, hu, f.excess_of_lt hfraction]
    rw [h0] at hsplit
    simpa using hsplit
  · obtain ⟨j, hj⟩ := Nat.exists_eq_succ_of_ne_zero h0
    have hu : f.units bits = (2 ^ f.fractionBits + bits % 2 ^ f.fractionBits) * 2 ^ j := by
      simp [units, hj]
    rw [ofUnits, hu, f.excess_shift (by omega) (by omega),
      Nat.mul_div_cancel _ (Nat.two_pow_pos j), ← hsplit, hj, Nat.succ_eq_add_one]
    ring

/-- The units of the pattern of so many units, if none are cut off. -/
theorem units_ofUnits {k : Nat} (h : k % 2 ^ f.excess k = 0) (hk : f.ofUnits k < f.signBit) :
    f.units (f.ofUnits k) = k := by
  have hmag : f.magnitude (f.ofUnits k) = f.ofUnits k := Nat.mod_eq_of_lt hk
  by_cases hsmall : k < 2 ^ f.fractionBits
  · have hp : f.ofUnits k = k := by simp [ofUnits, f.excess_of_lt hsmall]
    rw [hp] at hmag ⊢
    simp [units, hmag, Nat.div_eq_of_lt hsmall, Nat.mod_eq_of_lt hsmall]
  · obtain ⟨hlo, hhi⟩ := f.significand_bounds (Nat.le_of_not_lt hsmall)
    obtain ⟨r, hr⟩ := Nat.exists_eq_add_of_le hlo
    have hlt : r < 2 ^ f.fractionBits := by omega
    have hp : f.ofUnits k = 2 ^ f.fractionBits * (f.excess k + 1) + r := by
      rw [ofUnits, hr]
      ring
    have hexp : f.ofUnits k / 2 ^ f.fractionBits = f.excess k + 1 := by
      rw [hp, Nat.mul_add_div (Nat.two_pow_pos _), Nat.div_eq_of_lt hlt, Nat.add_zero]
    have hmod : f.ofUnits k % 2 ^ f.fractionBits = r := by
      rw [hp, Nat.mul_add_mod, Nat.mod_eq_of_lt hlt]
    rw [units, hmag, hexp, hmod, if_neg (by omega), Nat.add_sub_cancel, ← hr]
    exact Nat.div_mul_cancel (Nat.dvd_of_mod_eq_zero h)

/-! ### Between a format and the double -/

/-- The sign of a pattern of twice `signBit` patterns, as a bit. -/
theorem sign_div (bits : Nat) : f.sign bits / f.signBit = bits / f.signBit % 2 :=
  Nat.mul_div_cancel _ f.signBit_pos

/-- Sign and magnitude are put together again. -/
theorem sign_add_magnitude {bits : Nat} (h : bits < 2 * f.signBit) :
    bits / f.signBit % 2 * f.signBit + f.magnitude bits = bits := by
  have hs : bits / f.signBit < 2 := (Nat.div_lt_iff_lt_mul f.signBit_pos).mpr h
  rw [Nat.mod_eq_of_lt hs, magnitude, Nat.mul_comm]
  exact Nat.div_add_mod ..

/-- What narrowing finds: a sign and the pattern of so many units of the format. -/
theorem narrow?_eq_some {bits p : Nat} (h : f.narrow? bits = some p) :
    ∃ k, double.units bits = k * f.unitsOfDouble ∧ k % 2 ^ f.excess k = 0 ∧
      f.ofUnits k < f.infinity ∧ p = bits / double.signBit % 2 * f.signBit + f.ofUnits k := by
  simp only [narrow?] at h
  split at h
  · next hu =>
    simp only [ofUnits?, Option.map_eq_some_iff] at h
    obtain ⟨m, hm, rfl⟩ := h
    split at hm
    · next hk =>
      refine ⟨_, (Nat.div_mul_cancel (Nat.dvd_of_mod_eq_zero hu)).symm, hk.1, hk.2, ?_⟩
      rw [← Option.some.inj hm, sign_div]
    · cases hm
  · cases h

/-- **Widening undoes narrowing**: the double of the pattern that narrowing finds is the
double it was found for. -/
theorem widen_of_narrow? {bits p : Nat} (hbits : bits < 2 * double.signBit)
    (h : f.narrow? bits = some p) : f.widen p = bits := by
  obtain ⟨k, hunits, hexact, hfinite, rfl⟩ := f.narrow?_eq_some h
  have hlt := lt_trans hfinite f.infinity_lt_signBit
  have hmag : f.magnitude (bits / double.signBit % 2 * f.signBit + f.ofUnits k) = f.ofUnits k := by
    rw [magnitude, Nat.add_comm, Nat.add_mul_mod_self_right, Nat.mod_eq_of_lt hlt]
  have hsign : (bits / double.signBit % 2 * f.signBit + f.ofUnits k) / f.signBit =
      bits / double.signBit % 2 := by
    rw [Nat.add_comm, Nat.add_mul_div_right _ _ f.signBit_pos, Nat.div_eq_of_lt hlt, Nat.zero_add]
  rw [widen, sign_div, hsign, hmag, if_pos hfinite, ← units_magnitude, hmag,
    f.units_ofUnits hexact hlt, ← hunits, ofUnits_units, Nat.mod_mod]
  exact double.sign_add_magnitude hbits

/-- A pattern that narrowing finds has no more bits than the format. -/
theorem narrow?_lt {bits p : Nat} (h : f.narrow? bits = some p) : p < 2 * f.signBit := by
  obtain ⟨k, -, -, hfinite, rfl⟩ := f.narrow?_eq_some h
  have hlt := lt_trans hfinite f.infinity_lt_signBit
  have hs : bits / double.signBit % 2 ≤ 1 := by omega
  have := Nat.mul_le_mul_right f.signBit hs
  omega

end Format

namespace Binary64

open Format

theorem bits_lt (x : Binary64) : x.bits.toNat < 2 * double.signBit := x.bits.toNat_lt

/-- The double with a pattern that a format widens to. -/
theorem ofNat_widen {f : Format} {x : Binary64} {p : Nat} (h : f.narrow? x.bits.toNat = some p) :
    (⟨UInt64.ofNat (f.widen p)⟩ : Binary64) = x := by
  rw [f.widen_of_narrow? x.bits_lt h, UInt64.ofNat_toNat]

/-- There are two infinities. -/
theorem eq_of_isInfinite {x : Binary64} (h : x.isInfinite = true) :
    x = if x.isNegative then ⟨0xFFF0000000000000⟩ else ⟨0x7FF0000000000000⟩ := by
  have hmag : double.magnitude x.bits.toNat = double.infinity := by simpa [isInfinite] using h
  have hbits := double.sign_add_magnitude x.bits_lt
  have hneg : x.isNegative = decide (x.bits.toNat / double.signBit % 2 * double.signBit ≠ 0) := rfl
  rw [hmag] at hbits
  rcases Nat.mod_two_eq_zero_or_one (x.bits.toNat / double.signBit) with hs | hs <;>
    rw [hs] at hbits hneg
  · rw [show x.isNegative = false from hneg]
    exact congrArg Binary64.mk (UInt64.toNat_inj.mp hbits.symm)
  · rw [show x.isNegative = true from hneg]
    exact congrArg Binary64.mk (UInt64.toNat_inj.mp hbits.symm)

end Binary64

end CborGraph
