import CborGraph.Proofs.Integers
import CborGraph.Proofs.ItemReader
import Mathlib.Algebra.Order.Field.Basic
import Mathlib.Algebra.Order.Ring.Abs
import Mathlib.Data.Rat.Cast.Order
import Mathlib.Tactic.FieldSimp
import Mathlib.Tactic.Positivity

/-!
# Shortest exact formats

`Format.value` is the number that a finite pattern of a format stands for, a rational. A double is
one of a narrower format exactly if some pattern of that has its value, `Format.Represents`, and
that is when narrowing finds one: `Format.represents_iff`. Widening keeps values,
`Format.value_widen`.

One may also find the pattern by converting the double, whatever becomes of it, and comparing what
is got back: `Conversion.coerce`. Of the conversion nothing is needed but that it keeps the sign and
leaves alone what it need not round, and then it makes no difference which one is taken,
`Conversion.coerce_eq_narrow?`. Rounding to the nearest pattern is one, `Format.rounding`.

Main statement: `Binary64.item_lossless_shortest`.
-/

namespace CborGraph

namespace Format

variable (f : Format) {p q : Nat} {x : Binary64}

/-! ### Patterns -/

/-- The pattern is one of the format and stands for a number. -/
def IsFinite (p : Nat) : Prop := p < 2 * f.signBit ∧ f.magnitude p < f.infinity

/-- The number that a finite pattern stands for. -/
def value (p : Nat) : ℚ := (-1) ^ (p / f.signBit % 2) * (f.units p / 2 ^ f.unitExponent)

theorem magnitude_add (s : Nat) {m : Nat} (hm : m < f.signBit) :
    f.magnitude (s * f.signBit + m) = m := by
  rw [magnitude, Nat.add_comm, Nat.add_mul_mod_self_right, Nat.mod_eq_of_lt hm]

theorem sign_add {s m : Nat} (hs : s < 2) (hm : m < f.signBit) :
    (s * f.signBit + m) / f.signBit % 2 = s := by
  rw [Nat.add_comm, Nat.add_mul_div_right _ _ f.signBit_pos, Nat.div_eq_of_lt hm, Nat.zero_add,
    Nat.mod_eq_of_lt hs]

/-- A finite pattern of any sign with a magnitude that is finite. -/
theorem isFinite_add {s m : Nat} (hs : s < 2) (hm : m < f.infinity) :
    f.IsFinite (s * f.signBit + m) := by
  have hlt := lt_trans hm f.infinity_lt_signBit
  refine ⟨?_, by rwa [f.magnitude_add s hlt]⟩
  have := Nat.mul_le_mul_right f.signBit (Nat.le_of_lt_succ hs)
  omega

/-! ### Units -/

/-- The units of a pattern are a number that the fraction has nearly room for, shifted. -/
theorem exists_units (p : Nat) :
    ∃ m j, f.units p = m * 2 ^ j ∧ m < 2 * 2 ^ f.fractionBits ∧ j < 2 ^ f.exponentBits := by
  have hfraction : p % 2 ^ f.fractionBits < 2 ^ f.fractionBits := Nat.mod_lt _ (Nat.two_pow_pos _)
  have hexp : f.magnitude p / 2 ^ f.fractionBits < 2 ^ f.exponentBits := by
    rw [Nat.div_lt_iff_lt_mul (Nat.two_pow_pos _), ← signBit_eq]
    exact Nat.mod_lt _ f.signBit_pos
  by_cases h0 : f.magnitude p / 2 ^ f.fractionBits = 0
  · refine ⟨p % 2 ^ f.fractionBits, 0, ?_, by omega, Nat.two_pow_pos _⟩
    simp [units, h0]
  · refine ⟨2 ^ f.fractionBits + p % 2 ^ f.fractionBits, f.magnitude p / 2 ^ f.fractionBits - 1,
      ?_, by omega, Nat.lt_of_le_of_lt (Nat.sub_le _ 1) hexp⟩
    simp [units, h0]

/-- What has nearly room in the fraction loses nothing if it is shifted. -/
theorem mod_excess {m j : Nat} (h : m < 2 * 2 ^ f.fractionBits) :
    m * 2 ^ j % 2 ^ f.excess (m * 2 ^ j) = 0 := by
  by_cases hm : m = 0
  · simp [hm]
  · have hne : m * 2 ^ j ≠ 0 := Nat.mul_ne_zero hm (Nat.two_pow_pos j).ne'
    have hlog : (m * 2 ^ j).log2 < f.fractionBits + 1 + j := by
      rw [Nat.log2_lt hne, Nat.pow_add, Nat.pow_succ']
      exact Nat.mul_lt_mul_of_pos_right h (Nat.two_pow_pos _)
    have hle : f.excess (m * 2 ^ j) ≤ j := by
      rw [excess]
      omega
    exact Nat.mod_eq_zero_of_dvd (Dvd.dvd.mul_left (Nat.pow_dvd_pow 2 hle) m)

theorem units_mod_excess (p : Nat) : f.units p % 2 ^ f.excess (f.units p) = 0 := by
  obtain ⟨m, j, hunits, hm, -⟩ := f.exists_units p
  rw [hunits]
  exact f.mod_excess hm

/-- A number of units that is not too large has a finite pattern. -/
theorem ofUnits_lt {k r : Nat} (h : k < 2 ^ (f.fractionBits + r)) :
    f.ofUnits k < (r + 1) * 2 ^ f.fractionBits := by
  by_cases hsmall : k < 2 ^ f.fractionBits
  · have hk : f.ofUnits k = k := by simp [ofUnits, f.excess_of_lt hsmall]
    rw [hk, Nat.add_mul, Nat.one_mul]
    omega
  · obtain ⟨-, hhi⟩ := f.significand_bounds (Nat.le_of_not_lt hsmall)
    have hk : k ≠ 0 := by
      have := Nat.two_pow_pos f.fractionBits
      omega
    have hlog : k.log2 < f.fractionBits + r := (Nat.log2_lt hk).mpr h
    have hexcess : f.excess k + 1 ≤ r := by
      have : f.fractionBits ≤ k.log2 := (Nat.le_log2 hk).mpr (Nat.le_of_not_lt hsmall)
      rw [excess]
      omega
    have hmul := Nat.mul_le_mul_right (2 ^ f.fractionBits) hexcess
    rw [Nat.add_mul, Nat.one_mul] at hmul
    rw [ofUnits, Nat.add_mul, Nat.one_mul]
    omega

theorem unitsOfDouble_pos : 0 < f.unitsOfDouble := Nat.two_pow_pos _

/-! ### Values -/

/-- Some pattern of the format has the value of the double. -/
def Represents (x : Binary64) : Prop := ∃ p, f.IsFinite p ∧ f.value p = double.value x.bits.toNat

/-- Every number of the format is one of the double. -/
structure FitsDouble : Prop where
  /-- The double has the longer fraction. -/
  fraction_le : f.fractionBits ≤ double.fractionBits
  /-- The double has the smaller unit. -/
  unit_le : f.unitExponent ≤ double.unitExponent
  /-- The double reaches further. -/
  range_le : f.fractionBits + 2 ^ f.exponentBits + (double.unitExponent - f.unitExponent) ≤
    2 ^ double.exponentBits

theorem half_fitsDouble : half.FitsDouble := ⟨by decide, by decide, by decide⟩

theorem single_fitsDouble : single.FitsDouble := ⟨by decide, by decide, by decide⟩

theorem abs_value (p : Nat) : |f.value p| = f.units p / 2 ^ f.unitExponent := by
  have hpos : (0 : ℚ) ≤ f.units p / 2 ^ f.unitExponent := by positivity
  rw [value, abs_mul, abs_pow, abs_neg, abs_one, one_pow, one_mul, abs_of_nonneg hpos]

variable {f} (hf : f.FitsDouble)

include hf

/-- The units of the format in those of the double. -/
theorem FitsDouble.div_unit (n : Nat) :
    (n : ℚ) / 2 ^ f.unitExponent = (n * f.unitsOfDouble : Nat) / 2 ^ double.unitExponent := by
  have hsplit : (2 : ℚ) ^ double.unitExponent =
      2 ^ f.unitExponent * 2 ^ (double.unitExponent - f.unitExponent) := by
    rw [← pow_add, Nat.add_sub_cancel' hf.unit_le]
  rw [hsplit, unitsOfDouble]
  push_cast
  field_simp

/-- Patterns of one value have as many units. -/
theorem FitsDouble.units_of_value_eq {b : Nat} (h : f.value p = double.value b) :
    f.units p * f.unitsOfDouble = double.units b := by
  have habs : |f.value p| = |double.value b| := by rw [h]
  rw [abs_value, abs_value, hf.div_unit] at habs
  have hpos : (2 : ℚ) ^ double.unitExponent ≠ 0 := by positivity
  exact_mod_cast (div_left_inj' hpos).mp habs

/-- Patterns with one sign and as many units have one value. -/
theorem FitsDouble.value_eq_of_units {b : Nat}
    (hsign : p / f.signBit % 2 = b / double.signBit % 2)
    (h : f.units p * f.unitsOfDouble = double.units b) : f.value p = double.value b := by
  rw [value, value, hf.div_unit, hsign, h]

/-! ### Widening -/

/-- Units of the format are not too many for the double. -/
theorem FitsDouble.ofUnits_lt (p : Nat) :
    double.ofUnits (f.units p * f.unitsOfDouble) < double.infinity := by
  obtain ⟨m, j, hunits, hm, hj⟩ := f.exists_units p
  have hroom : double.fractionBits + 1996 = 2 ^ double.exponentBits := rfl
  have hexponent : f.fractionBits + 1 + j + (double.unitExponent - f.unitExponent) ≤
      double.fractionBits + 1996 := by
    have := hf.range_le
    omega
  have hk : f.units p * f.unitsOfDouble < 2 ^ (double.fractionBits + 1996) := by
    refine lt_of_lt_of_le ?_ (Nat.pow_le_pow_right Nat.two_pos hexponent)
    rw [hunits, unitsOfDouble, Nat.pow_add, Nat.pow_add, Nat.pow_succ']
    exact Nat.mul_lt_mul_of_pos_right (Nat.mul_lt_mul_of_pos_right hm (Nat.two_pow_pos _))
      (Nat.two_pow_pos _)
  exact lt_trans (double.ofUnits_lt hk) (by decide)

omit hf in
/-- A finite pattern is widened to its sign and to the pattern of its units. -/
theorem widen_of_finite (hp : f.magnitude p < f.infinity) :
    f.widen p = p / f.signBit % 2 * double.signBit + double.ofUnits (f.units p * f.unitsOfDouble) := by
  rw [widen, sign_div, if_pos hp]

/-- **Widening keeps the sign and the units**, and so the value. -/
theorem FitsDouble.widen_spec (hp : f.IsFinite p) :
    double.IsFinite (f.widen p) ∧ f.widen p / double.signBit % 2 = p / f.signBit % 2 ∧
      double.units (f.widen p) = f.units p * f.unitsOfDouble := by
  have hfinite := hf.ofUnits_lt p
  have hlt := lt_trans hfinite double.infinity_lt_signBit
  have hs : p / f.signBit % 2 < 2 := Nat.mod_lt _ Nat.two_pos
  have hmag := double.magnitude_add (p / f.signBit % 2) hlt
  have hexact : f.units p * f.unitsOfDouble % 2 ^ double.excess (f.units p * f.unitsOfDouble) = 0 := by
    obtain ⟨m, j, hunits, hm, -⟩ := f.exists_units p
    have hm' : m < 2 * 2 ^ double.fractionBits :=
      lt_of_lt_of_le hm (Nat.mul_le_mul_left 2 (Nat.pow_le_pow_right Nat.two_pos hf.fraction_le))
    rw [hunits, unitsOfDouble, Nat.mul_assoc, ← Nat.pow_add]
    exact double.mod_excess hm'
  rw [widen_of_finite hp.2]
  refine ⟨double.isFinite_add hs hfinite, double.sign_add hs hlt, ?_⟩
  rw [← units_magnitude, hmag, double.units_ofUnits hexact hlt]

/-- **Widening is exact.** -/
theorem FitsDouble.value_widen (hp : f.IsFinite p) : double.value (f.widen p) = f.value p := by
  obtain ⟨-, hsign, hunits⟩ := hf.widen_spec hp
  exact (hf.value_eq_of_units hsign.symm hunits.symm).symm

/-! ### Narrowing -/

/-- **Narrowing finds the pattern** that has the sign of the double and its value, and no other. -/
theorem FitsDouble.narrow?_eq_some_iff {b : Nat} :
    f.narrow? b = some p ↔ f.IsFinite p ∧ p / f.signBit % 2 = b / double.signBit % 2 ∧
      f.value p = double.value b := by
  constructor
  · intro h
    obtain ⟨k, hunits, hexact, hfinite, rfl⟩ := f.narrow?_eq_some h
    have hlt := lt_trans hfinite f.infinity_lt_signBit
    have hmag := f.magnitude_add (b / double.signBit % 2) hlt
    have hsign := f.sign_add (Nat.mod_lt (b / double.signBit) Nat.two_pos) hlt
    refine ⟨⟨f.narrow?_lt h, by rwa [hmag]⟩, hsign, hf.value_eq_of_units hsign ?_⟩
    rw [← units_magnitude, hmag, f.units_ofUnits hexact hlt, hunits]
  · rintro ⟨hfinite, hsign, hvalue⟩
    have hunits := hf.units_of_value_eq hvalue
    have hfound : f.ofUnits? (f.units p) = some (f.magnitude p) := by
      rw [ofUnits?, ofUnits_units, if_pos ⟨f.units_mod_excess p, hfinite.2⟩]
    rw [narrow?, ← hunits, if_pos (Nat.mul_mod_left _ _), Nat.mul_div_cancel _ f.unitsOfDouble_pos, hfound,
      Option.map_some, sign_div, ← hsign, f.sign_add_magnitude hfinite.1]

/-- **A double is one of the format exactly if narrowing finds a pattern.** -/
theorem FitsDouble.represents_iff : f.Represents x ↔ ∃ p, f.narrow? x.bits.toNat = some p := by
  constructor
  · rintro ⟨p, hfinite, hvalue⟩
    -- The sign of a zero is not in its value, so that of the double is taken.
    have hs : x.bits.toNat / double.signBit % 2 < 2 := Nat.mod_lt _ Nat.two_pos
    have hlt := lt_trans hfinite.2 f.infinity_lt_signBit
    have hsign := f.sign_add hs hlt
    refine ⟨x.bits.toNat / double.signBit % 2 * f.signBit + f.magnitude p, ?_⟩
    apply hf.narrow?_eq_some_iff.mpr
    refine ⟨f.isFinite_add hs hfinite.2, hsign, hf.value_eq_of_units hsign ?_⟩
    rw [← units_magnitude, f.magnitude_add _ hlt, units_magnitude, hf.units_of_value_eq hvalue]
  · rintro ⟨p, h⟩
    obtain ⟨hfinite, -, hvalue⟩ := hf.narrow?_eq_some_iff.mp h
    exact ⟨p, hfinite, hvalue⟩

/-- Infinities and NaN are widened to such. -/
theorem FitsDouble.exists_widen (p : Nat) :
    ∃ m, f.widen p = p / f.signBit % 2 * double.signBit + m ∧ m < double.signBit ∧
      (m < double.infinity ↔ f.magnitude p < f.infinity) := by
  by_cases hfinite : f.magnitude p < f.infinity
  · have hlt := hf.ofUnits_lt p
    exact ⟨_, widen_of_finite hfinite, lt_trans hlt double.infinity_lt_signBit,
      iff_of_true hlt hfinite⟩
  · refine ⟨double.infinity +
      (f.magnitude p - f.infinity) * 2 ^ (double.fractionBits - f.fractionBits), ?_, ?_,
      iff_of_false (by omega) hfinite⟩
    · rw [widen, sign_div, if_neg hfinite]
    · have hbeyond : f.magnitude p - f.infinity < 2 ^ f.fractionBits := by
        have hmag : f.magnitude p < f.signBit := Nat.mod_lt _ f.signBit_pos
        have hsum : f.infinity + 2 ^ f.fractionBits = f.signBit := by
          rw [infinity, signBit_eq, ← Nat.succ_mul, Nat.succ_eq_add_one,
            Nat.sub_add_cancel (Nat.two_pow_pos _)]
        omega
      have hshift := Nat.mul_lt_mul_of_pos_right hbeyond
        (Nat.two_pow_pos (double.fractionBits - f.fractionBits))
      rw [← Nat.pow_add, Nat.add_sub_cancel' hf.fraction_le] at hshift
      have hsum : double.infinity + 2 ^ double.fractionBits = double.signBit := by decide
      omega

end Format

/-! ### Converting and comparing -/

namespace Binary64

open Format

variable {x y : Binary64}

/-- The double is a number. -/
def IsFinite (x : Binary64) : Prop := double.magnitude x.bits.toNat < double.infinity

theorem isFinite_iff : x.IsFinite ↔ x.isNaN = false ∧ x.isInfinite = false := by
  simp only [IsFinite, isNaN, isInfinite, decide_eq_false_iff_not]
  omega

/-- The two compare equal: neither is NaN, and they are the same or both zero. -/
def equals (x y : Binary64) : Bool :=
  !x.isNaN && !y.isNaN &&
    (x = y || (double.magnitude x.bits.toNat = 0 && double.magnitude y.bits.toNat = 0))

theorem equals_refl (h : x.IsFinite) : x.equals x = true := by
  simp [equals, (isFinite_iff.mp h).1]

/-- What compares equal to a number is a number and has its value. -/
theorem value_of_equals (hy : y.IsFinite) (h : x.equals y = true) :
    x.IsFinite ∧ double.value x.bits.toNat = double.value y.bits.toNat := by
  simp only [equals, Bool.and_eq_true, Bool.or_eq_true, decide_eq_true_eq] at h
  rcases h.2 with rfl | ⟨hx0, hy0⟩
  · exact ⟨hy, rfl⟩
  · have hunits : ∀ b, double.magnitude b = 0 → double.units b = 0 := by
      intro b hb
      rw [← units_magnitude, hb]
      rfl
    refine ⟨?_, ?_⟩
    · rw [IsFinite, hx0]
      decide
    · simp [value, hunits _ hx0, hunits _ hy0]

end Binary64

namespace Format

/-- The double that a pattern is widened to. -/
def toDouble (f : Format) (p : Nat) : Binary64 := ⟨UInt64.ofNat (f.widen p)⟩

variable {f : Format} {p : Nat}

theorem FitsDouble.bits_toDouble (hf : f.FitsDouble) (p : Nat) :
    (f.toDouble p).bits.toNat = f.widen p := by
  obtain ⟨m, hm, hlt, -⟩ := hf.exists_widen p
  have hs : p / f.signBit % 2 ≤ 1 := Nat.le_of_lt_succ (Nat.mod_lt _ Nat.two_pos)
  have hbound := Nat.mul_le_mul_right double.signBit hs
  apply UInt64.toNat_ofNat_of_lt'
  have htwo : UInt64.size = 2 * double.signBit := rfl
  omega

/-- Only a finite pattern is widened to a number. -/
theorem FitsDouble.isFinite_of_toDouble (hf : f.FitsDouble) (hp : p < 2 * f.signBit)
    (h : (f.toDouble p).IsFinite) : f.IsFinite p := by
  obtain ⟨m, hm, hlt, hiff⟩ := hf.exists_widen p
  rw [Binary64.IsFinite, hf.bits_toDouble, hm, double.magnitude_add _ hlt] at h
  exact ⟨hp, hiff.mp h⟩

end Format

/-- A conversion of doubles to patterns of a format. It may round as it likes, and it may fail; but
it keeps the sign of a number, and a number that the format has is returned unchanged. -/
structure Conversion (f : Format) where
  /-- The pattern that a double is converted to. -/
  convert : Binary64 → Option Nat
  /-- The pattern has no more bits than the format. -/
  convert_lt : ∀ {x p}, convert x = some p → p < 2 * f.signBit
  /-- The pattern has the sign of the double. -/
  convert_sign : ∀ {x p}, x.IsFinite → convert x = some p →
    p / f.signBit % 2 = x.bits.toNat / Format.double.signBit % 2
  /-- The pattern has the value of the double if some pattern has. -/
  convert_exact : ∀ {x : Binary64}, x.IsFinite → f.Represents x →
    ∃ p, convert x = some p ∧ f.IsFinite p ∧ f.value p = Format.double.value x.bits.toNat

namespace Conversion

open Format

variable {f : Format} (c : Conversion f) {x : Binary64}

/-- Convert, and give up if what is got back does not compare equal. -/
def coerce (x : Binary64) : Option Nat := (c.convert x).filter fun p => (f.toDouble p).equals x

/-- **It makes no difference how a double is converted**: what compares equal afterwards is the
pattern with its sign and its value. -/
theorem coerce_eq_narrow? (hf : f.FitsDouble) (hx : x.IsFinite) :
    c.coerce x = f.narrow? x.bits.toNat := by
  -- A pattern that the conversion finds is one that narrowing finds, if it has the value.
  have hfound : ∀ {p}, c.convert x = some p → f.IsFinite p →
      f.value p = double.value x.bits.toNat → f.narrow? x.bits.toNat = some p :=
    fun hp hfinite hvalue =>
      hf.narrow?_eq_some_iff.mpr ⟨hfinite, c.convert_sign hx hp, hvalue⟩
  rw [coerce]
  cases hnarrow : f.narrow? x.bits.toNat with
  | some p =>
    obtain ⟨q, hq, hfinite, hvalue⟩ := c.convert_exact hx (hf.represents_iff.mpr ⟨p, hnarrow⟩)
    have hqp : q = p := by
      have h := hfound hq hfinite hvalue
      rw [hnarrow] at h
      exact (Option.some_inj.mp h).symm
    have hback : f.toDouble p = x := Binary64.ofNat_widen hnarrow
    rw [hq, hqp, Option.filter_some, hback, Binary64.equals_refl hx, if_pos rfl]
  | none =>
    cases hp : c.convert x with
    | none => rfl
    | some p =>
      have hne : (f.toDouble p).equals x ≠ true := by
        intro hequals
        obtain ⟨hback, hvalue⟩ := Binary64.value_of_equals hx hequals
        have hfinite := hf.isFinite_of_toDouble (c.convert_lt hp) hback
        rw [hf.bits_toDouble, hf.value_widen hfinite] at hvalue
        rw [hfound hp hfinite hvalue] at hnarrow
        cases hnarrow
      rw [Option.filter_some, if_neg hne]

end Conversion

/-! ### Rounding -/

namespace Format

variable (f : Format)

/-- A quotient that is whole is not rounded. -/
theorem roundDiv_mul (a : Nat) {d : Nat} (hd : 0 < d) : roundDiv (a * d) d = a := by
  simp [roundDiv, Nat.mul_div_cancel _ hd, hd]

/-- A number of units that has a pattern is not rounded. -/
theorem roundUnits_mul {k d : Nat} (hd : 0 < d) (hexact : k % 2 ^ f.excess k = 0)
    (hfinite : f.ofUnits k < f.infinity) : f.roundUnits (k * d) d = f.ofUnits k := by
  have hk : k * d = k / 2 ^ f.excess k * (d * 2 ^ f.excess k) := by
    rw [Nat.mul_comm d, ← Nat.mul_assoc, Nat.div_mul_cancel (Nat.dvd_of_mod_eq_zero hexact)]
  have hround : roundDiv (k * d) (d * 2 ^ f.excess k) = k / 2 ^ f.excess k := by
    rw [hk]
    exact roundDiv_mul _ (Nat.mul_pos hd (Nat.two_pow_pos _))
  rw [roundUnits, Nat.mul_div_cancel _ hd]
  simp only [hround]
  exact Nat.min_eq_left hfinite.le

theorem roundUnits_lt (n d : Nat) : f.roundUnits n d < f.signBit :=
  lt_of_le_of_lt (Nat.min_le_right _ _) f.infinity_lt_signBit

variable {f}

/-- **Rounding to the nearest pattern**, or to infinity beyond the last. -/
def rounding (hf : f.FitsDouble) : Conversion f where
  convert x := some (x.bits.toNat / double.signBit % 2 * f.signBit +
    f.roundUnits (double.units x.bits.toNat) f.unitsOfDouble)
  convert_lt {x p} h := by
    have hlt := f.roundUnits_lt (double.units x.bits.toNat) f.unitsOfDouble
    have hs : x.bits.toNat / double.signBit % 2 ≤ 1 :=
      Nat.le_of_lt_succ (Nat.mod_lt _ Nat.two_pos)
    have hbound := Nat.mul_le_mul_right f.signBit hs
    rw [← Option.some_inj.mp h]
    omega
  convert_sign {x p} _ h := by
    rw [← Option.some_inj.mp h]
    exact f.sign_add (Nat.mod_lt _ Nat.two_pos) (f.roundUnits_lt _ _)
  convert_exact {x} _ h := by
    obtain ⟨p, hnarrow⟩ := hf.represents_iff.mp h
    obtain ⟨hfinite, hsign, hvalue⟩ := hf.narrow?_eq_some_iff.mp hnarrow
    refine ⟨p, ?_, hfinite, hvalue⟩
    have hmag := f.ofUnits_units p
    have hround : f.roundUnits (f.units p * f.unitsOfDouble) f.unitsOfDouble = f.magnitude p := by
      rw [f.roundUnits_mul f.unitsOfDouble_pos (f.units_mod_excess p) (hmag ▸ hfinite.2), hmag]
    rw [← hf.units_of_value_eq hvalue, hround, ← hsign, f.sign_add_magnitude hfinite.1]

end Format

/-! ### Items -/

namespace Binary64

open Format

variable {x : Binary64}

/-- The item of a double, in the first of three formats from which it is got back after it was
converted. -/
def coercedItem (toHalf : Conversion half) (toSingle : Conversion single) (x : Binary64) : Bytes :=
  if x.isNaN then nanItem
  else if x.isInfinite then infinityItem x.isNegative
  else
    match toHalf.coerce x with
    | some p => halfItem p
    | none =>
      match toSingle.coerce x with
      | some p => singleItem p
      | none => doubleItem x.bits.toNat

/-- The shortest exact item is found by converting and comparing, with whichever conversions. -/
theorem coercedItem_eq (toHalf : Conversion half) (toSingle : Conversion single) (x : Binary64) :
    x.coercedItem toHalf toSingle = x.item true := by
  rw [coercedItem, item]
  by_cases hnan : x.isNaN = true
  · rw [if_pos hnan, if_pos hnan]
  · by_cases hinf : x.isInfinite = true
    · rw [if_neg hnan, if_neg hnan, if_pos hinf, if_pos hinf]
    · have hx : x.IsFinite := isFinite_iff.mpr ⟨by simpa using hnan, by simpa using hinf⟩
      rw [toHalf.coerce_eq_narrow? half_fitsDouble hx,
        toSingle.coerce_eq_narrow? single_fitsDouble hx]
      rfl

/-- The formats are tried from the shortest on. -/
theorem item_cases (hx : x.IsFinite) :
    (half.Represents x ∧ ∃ p, x.item true = halfItem p) ∨
    (¬half.Represents x ∧ single.Represents x ∧ ∃ p, x.item true = singleItem p) ∨
    (¬half.Represents x ∧ ¬single.Represents x ∧ x.item true = doubleItem x.bits.toNat) := by
  obtain ⟨hnan, hinf⟩ := isFinite_iff.mp hx
  simp only [half_fitsDouble.represents_iff, single_fitsDouble.represents_iff, item, hnan, hinf,
    Bool.false_eq_true, if_false, if_true]
  cases half.narrow? x.bits.toNat with
  | some p => simp
  | none => cases single.narrow? x.bits.toNat with
    | some p => simp
    | none => simp

/-- **Doubles are written without loss, and as short as can be if that is asked for.**

A float is written as an item, and whatever follows the item, it is read back as the same double,
bit for bit. Every NaN is written as the same half, and the infinities are halves as well. The
reader widens halves and singles exactly. A number that is not to be shortened is its 64 bits; if it
is, it is a half if some half has its value, or else a single if some single has, or else a double.
The format is found by converting and comparing, with any conversions that keep signs and leave
unchanged what they need not round. -/
theorem item_lossless_shortest (x : Binary64) (toHalf : Conversion half)
    (toSingle : Conversion single) :
    (∀ (settings : Settings) (call : View → Value → Run) (view : View),
      Run.Emits (Op.runAll call view (Op.float settings x)) (x.item settings.compactFloats)) ∧
    (∀ (compact preferred : Bool) (rest : Bytes), x.isNaN = false →
      Item.parse preferred (x.item compact ++ rest) = some (.float x, rest)) ∧
    (∀ compact : Bool, x.isNaN = true → x.item compact = [0xF9, 0x7E, 0x00]) ∧
    (∀ compact : Bool, x.isInfinite = true →
      x.item compact = [0xF9, if x.isNegative then 0xFC else 0x7C, 0x00]) ∧
    (∀ p, half.IsFinite p → double.value (half.widen p) = half.value p) ∧
    (∀ p, single.IsFinite p → double.value (single.widen p) = single.value p) ∧
    (x.IsFinite → x.item false = 0xFB :: Bytes.fixed 8 x.bits.toNat) ∧
    x.item true = x.coercedItem toHalf toSingle ∧
    (x.IsFinite →
      ((x.item true).head? = some 0xF9 ↔ half.Represents x) ∧
      ((x.item true).head? = some 0xFA ↔ ¬half.Represents x ∧ single.Represents x) ∧
      ((x.item true).head? = some 0xFB ↔ ¬half.Represents x ∧ ¬single.Represents x)) := by
  refine ⟨fun settings call view => ?_, fun compact preferred rest hnan => ?_, fun compact hnan => ?_,
    fun compact hinf => ?_, fun p hp => ?_, fun p hp => ?_, fun hx => ?_, ?_, fun hx => ?_⟩
  · exact emits_singleton (emits_write _)
  · have hquiet : x.quiet = x := by rw [quiet, hnan]; rfl
    have hpos : 0 < (x.item compact ++ rest).length := by
      rw [List.length_append]
      have := Item.length_item_pos compact x
      omega
    obtain ⟨depth, hdepth⟩ := Nat.exists_eq_succ_of_ne_zero hpos.ne'
    rw [Item.parse, hdepth, Item.read_float preferred compact depth hquiet]
  · rw [item, if_pos hnan]
    rfl
  · have hnan : x.isNaN = false := by
      simp only [isInfinite, decide_eq_true_eq] at hinf
      simp [isNaN, hinf]
    rw [item, hnan, if_neg Bool.false_ne_true, if_pos hinf]
    cases x.isNegative <;> rfl
  · exact half_fitsDouble.value_widen hp
  · exact single_fitsDouble.value_widen hp
  · obtain ⟨hnan, hinf⟩ := isFinite_iff.mp hx
    rw [item, hnan, hinf]
    rfl
  · rw [coercedItem_eq]
  · have hhalf : ∀ p, (halfItem p).head? = some 0xF9 := fun _ => rfl
    have hsingle : ∀ p, (singleItem p).head? = some 0xFA := fun _ => rfl
    have hdouble : ∀ p, (doubleItem p).head? = some 0xFB := fun _ => rfl
    rcases item_cases hx with ⟨h, p, hp⟩ | ⟨h, h', p, hp⟩ | ⟨h, h', hp⟩ <;>
      simp [*]

/-- The half next to zero is written as a half with its sign, and read back. A number half as large
is rounded to zero, does not compare equal, and is written as a single. -/
theorem item_lossless_shortest_next_to_zero :
    let x : Binary64 := ⟨0xBE70000000000000⟩
    let y : Binary64 := ⟨0xBE60000000000000⟩
    x.isNaN = false ∧ x.IsFinite ∧ half.Represents x ∧
      Item.parse true [0xF9, 0x80, 0x01] = some (.float x, []) ∧
    y.IsFinite ∧ (rounding half_fitsDouble).convert y = some 0x8000 ∧
      ¬half.Represents y ∧ single.Represents y ∧ y.item true = [0xFA, 0xB3, 0x00, 0x00, 0x00] := by
  intro x y
  have hx : x.IsFinite := by
    rw [IsFinite]
    decide
  have hy : y.IsFinite := by
    rw [IsFinite]
    decide
  have hxnan : x.isNaN = false := (isFinite_iff.mp hx).1
  have hitem : x.item true = [0xF9, 0x80, 0x01] := by decide +kernel
  have hitem' : y.item true = [0xFA, 0xB3, 0x00, 0x00, 0x00] := by decide +kernel
  obtain ⟨-, hparse, -, -, -, -, -, -, hheads⟩ :=
    item_lossless_shortest x (rounding half_fitsDouble) (rounding single_fitsDouble)
  obtain ⟨-, -, -, -, -, -, -, -, hheads'⟩ :=
    item_lossless_shortest y (rounding half_fitsDouble) (rounding single_fitsDouble)
  have hback := hparse true true [] hxnan
  rw [hitem] at hback
  have hhalf : half.Represents x := (hheads hx).1.mp (by rw [hitem]; rfl)
  have hsingle : ¬half.Represents y ∧ single.Represents y := (hheads' hy).2.1.mp (by rw [hitem']; rfl)
  exact ⟨hxnan, hx, hhalf, hback, hy, by decide +kernel, hsingle.1, hsingle.2, hitem'⟩

end Binary64

end CborGraph
