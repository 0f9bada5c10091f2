import CborGraph.Proofs.Narrowing
import Mathlib.Data.Rat.Floor
import Mathlib.Tactic.Linarith

/-!
# Rounding to the nearest double

`Binary64.Nearest q x` says that `x` is the double nearest to the number `q`, a half going to the even
pattern. Rounding finds it as long as it lies in range: `Binary64.nearest_roundUnits`, and from it for a
quotient `nearest_ofRatio` and for a sum `nearest_add`.

What is nearest to a number lies on no other side of a double than the number itself, `Nearest.le_of_le`
and `Nearest.ge_of_ge`. Rounding keeps the order (`Nearest.mono`) and changes no double
(`Nearest.eq_of_value`). How far it may be off is said by `Nearest.error_le`.
-/

namespace CborGraph

namespace Format

variable (f : Format) {n d u : Nat}

/-! ### Division -/

/-- A quotient is rounded to one that is off by half the divisor at most, and by less if it is odd. -/
theorem roundDiv_spec (n : Nat) (hd : 0 < d) :
    2 * n ≤ 2 * (roundDiv n d * d) + d ∧ 2 * (roundDiv n d * d) ≤ 2 * n + d ∧
      (roundDiv n d % 2 = 1 →
        2 * n < 2 * (roundDiv n d * d) + d ∧ 2 * (roundDiv n d * d) < 2 * n + d) := by
  have hsplit := Nat.div_add_mod' n d
  have hmod := Nat.mod_lt n hd
  have hsucc := Nat.succ_mul (n / d) d
  rw [Nat.succ_eq_add_one] at hsucc
  simp only [roundDiv]
  split_ifs with hless hmore
  · omega
  · rw [hsucc]
    omega
  · rcases Nat.mod_two_eq_zero_or_one (n / d) with heven | hodd
    · rw [heven, Nat.add_zero]
      omega
    · rw [hodd, hsucc]
      omega

/-- **No other multiple of the divisor is nearer**, and if another is as near, the quotient is even. -/
theorem roundDiv_nearest (n m : Nat) (hd : 0 < d) :
    ((roundDiv n d * d : Nat) - n : Int).natAbs ≤ ((m * d : Nat) - n : Int).natAbs ∧
      (((m * d : Nat) - n : Int).natAbs = ((roundDiv n d * d : Nat) - n : Int).natAbs →
        m = roundDiv n d ∨ roundDiv n d % 2 = 0) := by
  obtain ⟨hlo, hhi, hodd⟩ := roundDiv_spec n hd
  rcases Nat.lt_trichotomy m (roundDiv n d) with hlt | heq | hgt
  · have hmul := Nat.mul_le_mul_right d hlt
    rw [Nat.succ_mul] at hmul
    omega
  · rw [heq]
    exact ⟨le_rfl, fun _ => .inl rfl⟩
  · have hmul := Nat.mul_le_mul_right d hgt
    rw [Nat.succ_mul] at hmul
    omega

/-! ### Units -/

/-- The units that `n / d` units are rounded to. -/
def rounded (n d : Nat) : Nat := roundDiv n (d * 2 ^ f.excess (n / d)) * 2 ^ f.excess (n / d)

/-- The pattern of a number that has nearly room in the fraction, shifted by no more than it needs. -/
theorem ofUnits_shift {m i : Nat} (hm : m < 2 * 2 ^ f.fractionBits) (hi : i ≠ 0 → 2 ^ f.fractionBits ≤ m) :
    f.ofUnits (m * 2 ^ i) = m + i * 2 ^ f.fractionBits := by
  by_cases hlo : 2 ^ f.fractionBits ≤ m
  · rw [ofUnits, f.excess_shift hlo hm, Nat.mul_div_cancel _ (Nat.two_pow_pos i)]
  · have h0 : i = 0 := by
      by_contra hne
      exact hlo (hi hne)
    rw [h0, Nat.pow_zero, Nat.mul_one, ofUnits, f.excess_of_lt (Nat.lt_of_not_le hlo), Nat.pow_zero,
      Nat.div_one]

/-- What is left in the fraction of a number of units. -/
theorem significand_lt (k : Nat) : k / 2 ^ f.excess k < 2 * 2 ^ f.fractionBits := by
  by_cases hsmall : k < 2 ^ f.fractionBits
  · rw [f.excess_of_lt hsmall, Nat.pow_zero, Nat.div_one]
    omega
  · exact (f.significand_bounds (Nat.le_of_not_lt hsmall)).2

/-- Units that reach beyond the fraction fill it. -/
theorem le_significand {k : Nat} (h : f.excess k ≠ 0) : 2 ^ f.fractionBits ≤ k / 2 ^ f.excess k := by
  by_contra hlt
  refine h (f.excess_of_lt ?_)
  by_contra hle
  exact hlt (f.significand_bounds (Nat.le_of_not_lt hle)).1

/-- Rounding may fill the fraction, but goes no further. -/
theorem roundDiv_le (n d : Nat) :
    roundDiv n (d * 2 ^ f.excess (n / d)) ≤ 2 * 2 ^ f.fractionBits := by
  have hquotient := f.significand_lt (n / d)
  rw [Nat.div_div_eq_div_mul] at hquotient
  rw [roundDiv]
  split_ifs <;> omega

/-- A rounded number of units has a pattern, which is found by one addition. -/
theorem exists_rounded (n d : Nat) :
    ∃ m i, f.rounded n d = m * 2 ^ i ∧ m < 2 * 2 ^ f.fractionBits ∧ (i ≠ 0 → 2 ^ f.fractionBits ≤ m) ∧
      roundDiv n (d * 2 ^ f.excess (n / d)) + f.excess (n / d) * 2 ^ f.fractionBits =
        m + i * 2 ^ f.fractionBits := by
  have hle := f.roundDiv_le n d
  have hge : f.excess (n / d) ≠ 0 → 2 ^ f.fractionBits ≤ roundDiv n (d * 2 ^ f.excess (n / d)) := by
    intro h
    have hfull := f.le_significand h
    rw [Nat.div_div_eq_div_mul] at hfull
    rw [roundDiv]
    split_ifs <;> omega
  rw [rounded]
  generalize f.excess (n / d) = j at *
  generalize roundDiv n (d * 2 ^ j) = r at *
  by_cases hcarry : r = 2 * 2 ^ f.fractionBits
  · refine ⟨2 ^ f.fractionBits, j + 1, ?_, ?_, fun _ => le_rfl, ?_⟩
    · rw [hcarry, Nat.pow_succ]
      ring
    · have := Nat.two_pow_pos f.fractionBits
      omega
    · rw [hcarry]
      ring
  · exact ⟨r, j, rfl, by omega, hge, rfl⟩

/-- The rounded units are those of a pattern. -/
theorem rounded_mod_excess (n d : Nat) :
    f.rounded n d % 2 ^ f.excess (f.rounded n d) = 0 := by
  obtain ⟨m, i, hrounded, hm, -, -⟩ := f.exists_rounded n d
  rw [hrounded]
  exact f.mod_excess hm

theorem ofUnits_rounded (n d : Nat) :
    f.ofUnits (f.rounded n d) =
      roundDiv n (d * 2 ^ f.excess (n / d)) + f.excess (n / d) * 2 ^ f.fractionBits := by
  obtain ⟨m, i, hrounded, hm, hi, hpattern⟩ := f.exists_rounded n d
  rw [hrounded, f.ofUnits_shift hm hi, hpattern]

/-- A number of units that has a pattern is not rounded. -/
theorem rounded_one (h : u % 2 ^ f.excess u = 0) : f.rounded u 1 = u := by
  have hdvd := Nat.dvd_of_mod_eq_zero h
  have hround := roundDiv_mul (u / 2 ^ f.excess u) (Nat.two_pow_pos (f.excess u))
  rw [Nat.div_mul_cancel hdvd] at hround
  rw [rounded, Nat.div_one, Nat.one_mul, hround, Nat.div_mul_cancel hdvd]

/-- **No units of a pattern are nearer than the rounded ones**, and if others are as near, the pattern
is even. -/
theorem rounded_nearest (hf : f.fractionBits ≠ 0) (n : Nat) (hd : 0 < d) (hu : u % 2 ^ f.excess u = 0) :
    ((f.rounded n d * d : Nat) - n : Int).natAbs ≤ ((u * d : Nat) - n : Int).natAbs ∧
      (((u * d : Nat) - n : Int).natAbs = ((f.rounded n d * d : Nat) - n : Int).natAbs →
        u = f.rounded n d ∨ f.ofUnits (f.rounded n d) % 2 = 0) := by
  have hrounded : f.rounded n d * d =
      roundDiv n (d * 2 ^ f.excess (n / d)) * (d * 2 ^ f.excess (n / d)) := by
    rw [rounded]
    ring
  have hfull : f.excess (n / d) ≠ 0 → 2 ^ f.fractionBits * (d * 2 ^ f.excess (n / d)) ≤ n := by
    intro h
    have hle := f.le_significand h
    rwa [Nat.div_div_eq_div_mul, Nat.le_div_iff_mul_le (Nat.mul_pos hd (Nat.two_pow_pos _))] at hle
  have hpattern := f.ofUnits_rounded n d
  have heven : 2 ^ f.fractionBits % 2 = 0 := by
    obtain ⟨k, hk⟩ := Nat.exists_eq_succ_of_ne_zero hf
    rw [hk, Nat.pow_succ, Nat.mul_mod_left]
  have hD : 0 < d * 2 ^ f.excess (n / d) := Nat.mul_pos hd (Nat.two_pow_pos _)
  have hsplit := Nat.div_mul_cancel (Nat.dvd_of_mod_eq_zero hu)
  have hsignificand := f.significand_lt u
  rw [hrounded, hpattern]
  rw [rounded] at *
  generalize f.excess (n / d) = j at *
  generalize f.excess u = i at *
  generalize u / 2 ^ i = m at *
  by_cases hij : j ≤ i
  -- The units are a multiple of those that are rounded to.
  · obtain ⟨k, rfl⟩ := Nat.exists_eq_add_of_le hij
    have hmultiple : u * d = m * 2 ^ k * (d * 2 ^ j) := by
      rw [← hsplit, Nat.pow_add]
      ring
    obtain ⟨hle, htie⟩ := roundDiv_nearest n (m * 2 ^ k) hD
    rw [hmultiple]
    refine ⟨hle, fun h => ?_⟩
    rcases htie h with hm | hr
    · left
      rw [← hsplit, ← hm, Nat.pow_add]
      ring
    · right
      rw [Nat.add_mod, hr, Nat.mul_mod, heven]
      rfl
  -- The units are fewer than those of the least pattern with so long an exponent.
  · obtain ⟨hle, -⟩ := roundDiv_nearest n (2 ^ f.fractionBits) hD
    have hbase := hfull (by omega)
    have hpow : 2 ^ (i + 1) ≤ 2 ^ j := Nat.pow_le_pow_right Nat.two_pos (by omega)
    have hlt : u < 2 ^ f.fractionBits * 2 ^ j := by
      calc u = m * 2 ^ i := hsplit.symm
        _ < 2 * 2 ^ f.fractionBits * 2 ^ i := Nat.mul_lt_mul_of_pos_right hsignificand (Nat.two_pow_pos i)
        _ = 2 ^ f.fractionBits * 2 ^ (i + 1) := by rw [Nat.pow_succ]; ring
        _ ≤ 2 ^ f.fractionBits * 2 ^ j := Nat.mul_le_mul_left _ hpow
    have hbelow := Nat.mul_lt_mul_of_pos_right hlt hd
    rw [Nat.mul_assoc, Nat.mul_comm (2 ^ j) d] at hbelow
    omega

/-- A number of units that is not too large is rounded to a finite pattern. -/
theorem ofUnits_rounded_lt {s : Nat} (h : n / d < 2 ^ (f.fractionBits + s)) (hs : s + 3 < 2 ^ f.exponentBits) :
    f.ofUnits (f.rounded n d) < f.infinity := by
  have hexcess : f.excess (n / d) ≤ s := by
    by_cases h0 : n / d = 0
    · rw [h0, f.excess_of_lt (Nat.two_pow_pos _)]
      exact Nat.zero_le s
    · have hlog := (Nat.log2_lt h0).mpr h
      rw [excess]
      omega
  have hle := f.roundDiv_le n d
  have hmul := Nat.mul_le_mul_right (2 ^ f.fractionBits) hexcess
  have hroom : (s + 3) * 2 ^ f.fractionBits ≤ f.infinity := by
    rw [infinity]
    exact Nat.mul_le_mul_right _ (by omega)
  have hpos := Nat.two_pow_pos f.fractionBits
  rw [ofUnits_rounded]
  rw [Nat.add_mul] at hroom
  omega

/-- What is rounded to a finite pattern has that pattern and its units. -/
theorem roundUnits_spec (h : f.ofUnits (f.rounded n d) < f.infinity) :
    f.roundUnits n d = f.ofUnits (f.rounded n d) ∧ f.units (f.roundUnits n d) = f.rounded n d := by
  have hround : f.roundUnits n d = f.ofUnits (f.rounded n d) := by
    rw [ofUnits_rounded] at h ⊢
    exact Nat.min_eq_left h.le
  refine ⟨hround, ?_⟩
  rw [hround, f.units_ofUnits (f.rounded_mod_excess n d) (lt_trans h f.infinity_lt_signBit)]

end Format

namespace Binary64

open Format

variable {x y : Binary64} {q : ℚ}

/-! ### Doubles -/

/-- The number that a finite double stands for. -/
def value (x : Binary64) : ℚ := double.value x.bits.toNat

theorem units_eq (x : Binary64) :
    x.units = double.units x.bits.toNat ∨ x.units = -(double.units x.bits.toNat : Int) := by
  rw [units]
  split
  · exact .inr rfl
  · exact .inl rfl

/-- The value in units. -/
theorem value_eq (x : Binary64) : x.value = x.units / 2 ^ double.unitExponent := by
  have hsign : x.isNegative = decide (x.bits.toNat / double.signBit % 2 * double.signBit ≠ 0) := rfl
  have hpos := double.signBit_pos.ne'
  rw [value, Format.value, units, hsign]
  rcases Nat.mod_two_eq_zero_or_one (x.bits.toNat / double.signBit) with h | h <;> rw [h]
  · rw [Nat.zero_mul, decide_eq_false (not_not_intro rfl), if_neg Bool.false_ne_true]
    push_cast
    ring
  · rw [Nat.one_mul, decide_eq_true hpos, if_pos rfl]
    push_cast
    ring

/-- A sum is that of the values. -/
theorem add_congr (x : Binary64) {y' : Binary64} (h : y.value = y'.value) : x.add y = x.add y' := by
  have hpos : (2 : ℚ) ^ double.unitExponent ≠ 0 := by positivity
  rw [value_eq, value_eq, div_left_inj' hpos] at h
  have hunits : y.units = y'.units := by exact_mod_cast h
  rw [add, add, hunits]

/-- How far a double is from a number, in units of a fraction of its own unit. -/
theorem abs_value_sub (x : Binary64) (n : Int) {d : Nat} (hd : 0 < d) :
    |x.value - n / (d * 2 ^ double.unitExponent)| =
      ((x.units * d - n).natAbs : ℚ) / (d * 2 ^ double.unitExponent) := by
  have hpos : (0 : ℚ) < d * 2 ^ double.unitExponent := by positivity
  have hd' : (d : ℚ) ≠ 0 := by positivity
  have hsub : x.value - n / (d * 2 ^ double.unitExponent) =
      ((x.units * d - n : Int) : ℚ) / (d * 2 ^ double.unitExponent) := by
    rw [value_eq]
    push_cast
    field_simp
  rw [hsub, abs_div, abs_of_pos hpos, Nat.cast_natAbs, Int.cast_abs]

/-- The double is the one nearest to the number. If another is as near, its pattern is even. -/
structure Nearest (q : ℚ) (x : Binary64) : Prop where
  finite : x.IsFinite
  le : ∀ y : Binary64, y.IsFinite → |x.value - q| ≤ |y.value - q|
  even : ∀ y : Binary64, y.IsFinite → |y.value - q| = |x.value - q| →
    y.value = x.value ∨ x.bits.toNat % 2 = 0

/-! ### Rounding finds the nearest -/

section RoundUnits

variable {n : Int} {d : Nat}

theorem bits_roundUnits (n : Int) (d : Nat) :
    (roundUnits n d).bits.toNat =
      (if n < 0 then 1 else 0) * double.signBit + double.roundUnits n.natAbs d := by
  have hlt := double.roundUnits_lt n.natAbs d
  have hsize : UInt64.size = 2 * double.signBit := rfl
  have hbits : ((if n < 0 then 1 else 0) * double.signBit : Nat) = if n < 0 then double.signBit else 0 := by
    split
    · exact Nat.one_mul _
    · exact Nat.zero_mul _
  rw [roundUnits, hbits]
  apply UInt64.toNat_ofNat_of_lt'
  split <;> omega

variable (h : double.ofUnits (double.rounded n.natAbs d) < double.infinity)

include h

theorem isFinite_roundUnits : (roundUnits n d).IsFinite := by
  rw [IsFinite, bits_roundUnits, double.magnitude_add _ (double.roundUnits_lt _ _), (double.roundUnits_spec h).1]
  exact h

theorem units_roundUnits :
    (roundUnits n d).units =
      if n < 0 then -(double.rounded n.natAbs d : Int) else double.rounded n.natAbs d := by
  have hlt := double.roundUnits_lt n.natAbs d
  have hs : (if n < 0 then 1 else 0) < 2 := by split <;> decide
  have hunits : double.units (roundUnits n d).bits.toNat = double.rounded n.natAbs d := by
    rw [← units_magnitude, bits_roundUnits, double.magnitude_add _ hlt, (double.roundUnits_spec h).2]
  have hsign : (roundUnits n d).isNegative = decide (n < 0) := by
    have hpos := double.signBit_pos.ne'
    simp only [isNegative, Format.sign, bits_roundUnits, double.sign_add hs hlt]
    split
    · next hneg => simp only [Nat.one_mul, ne_eq, hpos, not_false_eq_true, hneg]
    · next hneg => simp only [Nat.zero_mul, ne_eq, not_true_eq_false, hneg]
  rw [units, hunits, hsign]
  simp only [decide_eq_true_eq]

/-- In units of a fraction of a unit, no double is nearer than the rounded one. -/
theorem natAbs_units_le (hd : 0 < d) (y : Binary64) :
    ((roundUnits n d).units * d - n).natAbs ≤ (y.units * d - n).natAbs ∧
      ((y.units * d - n).natAbs = ((roundUnits n d).units * d - n).natAbs →
        y.units = (roundUnits n d).units ∨ (roundUnits n d).bits.toNat % 2 = 0) := by
  have hfraction : double.fractionBits ≠ 0 := by decide
  obtain ⟨hle, htie⟩ :=
    double.rounded_nearest hfraction n.natAbs hd (double.units_mod_excess y.bits.toNat)
  obtain ⟨hle₀, htie₀⟩ := double.rounded_nearest hfraction n.natAbs hd (Nat.zero_mod _)
  have hbits : (roundUnits n d).bits.toNat % 2 = double.ofUnits (double.rounded n.natAbs d) % 2 := by
    have hsignBit : double.signBit % 2 = 0 := by decide
    rw [bits_roundUnits, (double.roundUnits_spec h).1, Nat.add_mod, Nat.mul_mod, hsignBit, Nat.mul_zero,
      Nat.zero_mod, Nat.zero_add, Nat.mod_mod]
  rw [units_roundUnits h, hbits]
  have hneg : ∀ k : Nat, -(k : Int) * d = -((k * d : Nat) : Int) := fun k => by
    rw [Int.neg_mul, Int.natCast_mul]
  have hzero : double.units y.bits.toNat * d = 0 → double.units y.bits.toNat = 0 := fun h0 =>
    (Nat.mul_eq_zero.mp h0).resolve_right hd.ne'
  rw [Nat.zero_mul] at hle₀ htie₀
  generalize double.rounded n.natAbs d = k at *
  -- A double of the other sign is no nearer than zero.
  rcases units_eq y with hy | hy <;> rw [hy] <;> generalize double.units y.bits.toNat = u at * <;>
    split <;> simp only [hneg, ← Int.natCast_mul] <;> generalize k * d = K at * <;>
    generalize u * d = U at * <;> omega

end RoundUnits

/-- **Rounding finds the nearest double**, if the number lies in range. -/
theorem nearest_roundUnits (n : Int) {d k : Nat} (hd : 0 < d) (hk : k ≤ 1022)
    (h : |(n : ℚ) / (d * 2 ^ double.unitExponent)| < 2 ^ k) :
    Nearest (n / (d * 2 ^ double.unitExponent)) (roundUnits n d) := by
  have hpos : (0 : ℚ) < d * 2 ^ double.unitExponent := by positivity
  have hunit : double.unitExponent = double.fractionBits + 1022 := rfl
  have hexponents : 2 ^ double.exponentBits = 2048 := rfl
  have hquotient : n.natAbs / d < 2 ^ (double.fractionBits + (1022 + k)) := by
    rw [abs_div, abs_of_pos hpos, div_lt_iff₀ hpos, ← Int.cast_abs, ← Nat.cast_natAbs] at h
    have hlt : n.natAbs < 2 ^ k * (d * 2 ^ double.unitExponent) := by exact_mod_cast h
    rw [Nat.div_lt_iff_lt_mul hd, ← Nat.add_assoc, ← hunit, Nat.pow_add]
    calc n.natAbs < 2 ^ k * (d * 2 ^ double.unitExponent) := hlt
      _ = 2 ^ double.unitExponent * 2 ^ k * d := by ring
  have hfinite := double.ofUnits_rounded_lt hquotient (by omega)
  refine ⟨isFinite_roundUnits hfinite, fun y _ => ?_, fun y _ htie => ?_⟩
  · obtain ⟨hle, -⟩ := natAbs_units_le hfinite hd y
    rw [abs_value_sub _ _ hd, abs_value_sub _ _ hd]
    exact div_le_div_of_nonneg_right (by exact_mod_cast hle) hpos.le
  · obtain ⟨-, heven⟩ := natAbs_units_le hfinite hd y
    rw [abs_value_sub _ _ hd, abs_value_sub _ _ hd, div_left_inj' hpos.ne'] at htie
    rcases heven (by exact_mod_cast htie) with hunits | heven
    · left
      rw [value_eq, value_eq, hunits]
    · exact .inr heven

/-- **A quotient is rounded to the nearest double.** -/
theorem nearest_ofRatio (n : Int) {d k : Nat} (hd : 0 < d) (hk : k ≤ 1022) (h : |(n : ℚ) / d| < 2 ^ k) :
    Nearest (n / d) (ofRatio n d) := by
  have hunit : (2 : ℚ) ^ double.unitExponent ≠ 0 := by positivity
  have hquotient : ((n * 2 ^ double.unitExponent : Int) : ℚ) / (d * 2 ^ double.unitExponent) = n / d := by
    push_cast
    exact mul_div_mul_right _ _ hunit
  rw [← hquotient] at h ⊢
  exact nearest_roundUnits _ hd hk h

/-- **A sum is rounded to the nearest double.** -/
theorem nearest_add (x y : Binary64) {k : Nat} (hk : k ≤ 1022) (h : |x.value + y.value| < 2 ^ k) :
    Nearest (x.value + y.value) (x.add y) := by
  have hsum : ((x.units + y.units : Int) : ℚ) / ((1 : Nat) * 2 ^ double.unitExponent) = x.value + y.value := by
    rw [value_eq, value_eq]
    push_cast
    rw [one_mul, add_div]
  rw [← hsum] at h ⊢
  exact nearest_roundUnits _ Nat.one_pos hk h

/-! ### What the nearest double is -/

/-- There is a double for a number of 53 bits, over a power of two. -/
theorem exists_value (m : Int) {e : Nat} (hm : m.natAbs ≤ 2 ^ 53) (he : e ≤ double.unitExponent) :
    ∃ y : Binary64, y.IsFinite ∧ y.value = m / 2 ^ e := by
  obtain ⟨i, hi⟩ := Nat.exists_eq_add_of_le he
  have hunit : double.unitExponent = 1074 := rfl
  have habs : (m * 2 ^ i).natAbs = m.natAbs * 2 ^ i := by
    rw [Int.natAbs_mul, Int.natAbs_pow]
    rfl
  have hexact : m.natAbs * 2 ^ i % 2 ^ double.excess (m.natAbs * 2 ^ i) = 0 := by
    rcases Nat.lt_or_eq_of_le hm with hlt | heq
    · exact double.mod_excess hlt
    · have hcarry : m.natAbs * 2 ^ i = 2 ^ 52 * 2 ^ (i + 1) := by
        rw [heq, Nat.pow_succ]
        ring
      rw [hcarry]
      exact double.mod_excess (by decide)
  have hrounded := double.rounded_one hexact
  have hfinite : double.ofUnits (m.natAbs * 2 ^ i) < double.infinity := by
    have hlt : m.natAbs * 2 ^ i < 2 ^ (double.fractionBits + (i + 2)) := by
      have hpow : double.fractionBits + (i + 2) = 54 + i := by
        rw [show double.fractionBits = 52 from rfl]
        omega
      rw [hpow, Nat.pow_add]
      exact Nat.mul_lt_mul_of_pos_right (lt_of_le_of_lt hm (by decide)) (Nat.two_pow_pos i)
    refine lt_of_lt_of_le (double.ofUnits_lt hlt) ?_
    rw [infinity, show double.exponentBits = 11 from rfl]
    exact Nat.mul_le_mul_right _ (by omega)
  have hfinite' : double.ofUnits (double.rounded (m * 2 ^ i).natAbs 1) < double.infinity := by
    rwa [habs, hrounded]
  refine ⟨roundUnits (m * 2 ^ i) 1, isFinite_roundUnits hfinite', ?_⟩
  have hunits : (roundUnits (m * 2 ^ i) 1).units = m * 2 ^ i := by
    rw [units_roundUnits hfinite', habs, hrounded, ← habs]
    split <;> omega
  rw [value_eq, hunits, hi, pow_add]
  push_cast
  exact mul_div_mul_right _ _ (by positivity)

namespace Nearest

variable {x' : Binary64} {q' : ℚ} (h : Nearest q x)

include h

/-- A double is nearest to itself. -/
theorem eq_of_value (hy : y.IsFinite) (hq : y.value = q) : x.value = q := by
  have hle := h.le y hy
  rw [hq, sub_self, abs_zero] at hle
  exact sub_eq_zero.mp (abs_nonpos_iff.mp hle)

/-- What is nearest to a number is not above a double that the number is not above. -/
theorem le_of_le (hy : y.IsFinite) (hq : q ≤ y.value) : x.value ≤ y.value := by
  by_contra hlt
  have hle := h.le y hy
  rw [abs_of_nonneg (by linarith), abs_of_nonneg (by linarith)] at hle
  linarith

/-- What is nearest to a number is not below a double that the number is not below. -/
theorem ge_of_ge (hy : y.IsFinite) (hq : y.value ≤ q) : y.value ≤ x.value := by
  by_contra hlt
  have hle := h.le y hy
  rw [abs_of_nonpos (by linarith), abs_of_nonpos (by linarith)] at hle
  linarith

/-- **Rounding keeps the order.** -/
theorem mono (h' : Nearest q' x') (hq : q < q') : x.value ≤ x'.value := by
  by_contra hlt
  have hle := h.le x' h'.finite
  have hle' := h'.le x h.finite
  have hmiddle : x.value + x'.value ≤ 2 * q := by
    have := sq_le_sq.mpr hle
    nlinarith
  have hmiddle' : 2 * q' ≤ x.value + x'.value := by
    have := sq_le_sq.mpr hle'
    nlinarith
  linarith

/-- **A number is rounded by half a unit of its last place at most.** -/
theorem error_le {e : Nat} (he : e ≤ double.unitExponent) (hq : |q * 2 ^ e| ≤ 2 ^ 53) :
    |x.value - q| ≤ 1 / 2 ^ (e + 1) := by
  have hpos : (0 : ℚ) < 2 ^ e := by positivity
  have hround := abs_sub_round (q * 2 ^ e)
  have hm : (round (q * 2 ^ e)).natAbs ≤ 2 ^ 53 := by
    have habs : |(round (q * 2 ^ e) : ℚ)| < 2 ^ 53 + 1 := by
      rw [abs_lt]
      rw [abs_le] at hq hround
      constructor <;> linarith
    rw [← Int.cast_abs, ← Nat.cast_natAbs] at habs
    exact Nat.le_of_lt_succ (by exact_mod_cast habs)
  obtain ⟨y, hy, hvalue⟩ := exists_value (round (q * 2 ^ e)) hm he
  have hsub : y.value - q = (round (q * 2 ^ e) - q * 2 ^ e) / 2 ^ e := by
    rw [hvalue, sub_div, mul_div_cancel_right₀ _ hpos.ne']
  calc |x.value - q| ≤ |y.value - q| := h.le y hy
    _ = |q * 2 ^ e - round (q * 2 ^ e)| / 2 ^ e := by rw [hsub, abs_div, abs_of_pos hpos, abs_sub_comm]
    _ ≤ 1 / 2 / 2 ^ e := div_le_div_of_nonneg_right hround hpos.le
    _ = 1 / 2 ^ (e + 1) := by rw [div_div, pow_succ']

end Nearest

end Binary64

end CborGraph
