import CborGraph.Proofs.Literals
import CborGraph.Text.Padded

/-!
# Reading padded numerals

`Text.fixed` are the last digits of a number, so many as are asked for. A numeral that is padded to a
width is no longer than the width if the number has no more digits, and then it is `Text.fixed`,
`Text.padded_eq_fixed`; but the width is a least one, and a larger number keeps all its digits. Either
is read back by `Literal.numeral`.
-/

namespace CborGraph.Text

/-- The last digits of a number. -/
def fixed : Nat → Nat → List Char
  | 0, _ => []
  | width + 1, n => fixed width (n / 10) ++ [Nat.digitChar (n % 10)]

@[simp] theorem length_fixed (width n : Nat) : (fixed width n).length = width := by
  induction width generalizing n with
  | zero => rfl
  | succ width ih => rw [fixed, List.length_append, ih, List.length_singleton]

theorem fixed_zero (width : Nat) : fixed width 0 = List.replicate width '0' := by
  induction width with
  | zero => rfl
  | succ width ih =>
    rw [fixed, Nat.zero_div, ih, List.replicate_succ']
    rfl

theorem isDigit_fixed {width n : Nat} {c : Char} (h : c ∈ fixed width n) : c.isDigit = true := by
  induction width generalizing n with
  | zero => cases h
  | succ width ih =>
    rw [fixed, List.mem_append, List.mem_singleton] at h
    rcases h with h | rfl
    · exact ih h
    · rw [Nat.isDigit_digitChar]
      exact decide_eq_true (Nat.mod_lt n (by decide))

theorem digit_digitChar {d : Nat} (h : d < 10) : Literal.digit (Nat.digitChar d) = d := by
  rw [Literal.digit, Nat.toNat_digitChar_of_lt_ten h]
  exact Nat.add_sub_cancel_left ..

theorem numeral_fixed (width n : Nat) : Literal.numeral (fixed width n) = n % 10 ^ width := by
  induction width generalizing n with
  | zero =>
    rw [Nat.pow_zero, Nat.mod_one]
    rfl
  | succ width ih =>
    have hlast : Literal.numeral [Nat.digitChar (n % 10)] = n % 10 := by
      rw [Literal.numeral, List.foldl_cons, List.foldl_nil, digit_digitChar (Nat.mod_lt _ (by decide)),
        Nat.zero_mul, Nat.zero_add]
    rw [fixed, Literal.numeral_append, ih, hlast, List.length_singleton, Nat.pow_one, Nat.pow_succ',
      Nat.mod_mul]
    omega

/-! ### Padding -/

theorem padded_of_lt {n : Nat} (width : Nat) (h : n < 10) :
    padded (width + 1) n = List.replicate width '0' ++ [Nat.digitChar n] := by
  rw [padded, Nat.toDigits_of_lt_base h, List.length_singleton, Nat.add_sub_cancel]

theorem padded_of_le {n : Nat} (width : Nat) (h : 10 ≤ n) :
    padded (width + 1) n = padded width (n / 10) ++ [Nat.digitChar (n % 10)] := by
  simp only [padded, Nat.toDigits_of_base_le (by decide) h, List.length_append, List.length_singleton,
    Nat.add_sub_add_right, List.append_assoc]

/-- **A numeral that has room is exactly as long as the width.** -/
theorem padded_eq_fixed {width n : Nat} (h₀ : 0 < width) (h : n < 10 ^ width) :
    padded width n = fixed width n := by
  induction width generalizing n with
  | zero => cases h₀
  | succ width ih =>
    by_cases hn : n < 10
    · rw [padded_of_lt width hn, fixed, Nat.div_eq_of_lt hn, fixed_zero, Nat.mod_eq_of_lt hn]
    · have hwidth : 0 < width := by
        by_contra h0
        rw [Nat.eq_zero_of_not_pos h0] at h
        exact hn h
      have hlt : n / 10 < 10 ^ width := by
        rw [Nat.div_lt_iff_lt_mul (by decide), ← Nat.pow_succ]
        exact h
      rw [padded_of_le width (Nat.le_of_not_lt hn), fixed, ih hwidth hlt]

/-- Hours, minutes and the like. -/
theorem padded_two {n : Nat} (h : n < 100) : padded 2 n = fixed 2 n := padded_eq_fixed Nat.two_pos h

/-- **A numeral that has no room is longer than the width**: what comes before its last digits stays. -/
theorem padded_eq_append {width n : Nat} (h : 10 ^ width ≤ n) :
    padded width n = Nat.toDigits 10 (n / 10 ^ width) ++ fixed width n := by
  induction width generalizing n with
  | zero => rw [padded, Nat.zero_sub, Nat.pow_zero, Nat.div_one, fixed, List.append_nil]; rfl
  | succ width ih =>
    have hten : 10 ≤ n := le_trans (Nat.le_self_pow (Nat.succ_ne_zero width) 10) h
    have hle : 10 ^ width ≤ n / 10 := by
      rw [Nat.le_div_iff_mul_le (by decide), ← Nat.pow_succ]
      exact h
    rw [padded_of_le width hten, ih hle, Nat.div_div_eq_div_mul, ← Nat.pow_succ', fixed, List.append_assoc]

/-- A padded numeral has digits enough for its number, and so many as the width at least. -/
theorem exists_padded_eq_fixed {width : Nat} (h₀ : 0 < width) (n : Nat) :
    ∃ k, width ≤ k ∧ n < 10 ^ k ∧ padded width n = fixed k n := by
  have hdigits : ∀ {k}, (Nat.toDigits 10 n).length ≤ k → 0 < k → n < 10 ^ k := fun h hk =>
    (Nat.length_toDigits_le_iff (by decide) hk).mp h
  by_cases h : (Nat.toDigits 10 n).length ≤ width
  · exact ⟨width, le_rfl, hdigits h h₀, padded_eq_fixed h₀ (hdigits h h₀)⟩
  · have hlt := Nat.lt_of_not_le h
    have hpos := Nat.zero_lt_of_lt hlt
    have hpadded : padded width n = padded (Nat.toDigits 10 n).length n := by
      simp only [padded, Nat.sub_eq_zero_of_le hlt.le, Nat.sub_self]
    refine ⟨_, hlt.le, hdigits le_rfl hpos, ?_⟩
    rw [hpadded, padded_eq_fixed hpos (hdigits le_rfl hpos)]

end CborGraph.Text
