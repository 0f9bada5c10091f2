import CborGraph.Rational
import Mathlib.Algebra.Order.Ring.Nat
import Mathlib.Data.Rat.Lemmas
import Mathlib.Tactic.FieldSimp
import Mathlib.Tactic.NormNum

/-!
# Fractions in lowest terms

A fraction of two integers that 128 bits hold is reduced, and then both parts must fit. That happens
in unsigned words, of which a divisor must not be zero and in which a result must have room, and the
divisor that the parts have in common is found by a loop. `Word.lowestTerms?` is that calculation step
by step, with a `Fault` wherever a step is not defined; no fault ever comes up,
`Word.lowestTerms?_eq`. Of the loop two rounds halve the smaller number at least,
`Word.commonDivisor_eq`.

Main statement: `Rational.ofInts?_exact`. The numerator and the denominator are compared with those of
the number itself, `Rat.num` and `Rat.den`.
-/

namespace CborGraph

-- Powers are those of the core library, also where others are in scope.
attribute [local instance (high)] instPowNat

/-! ### Calculating on words -/

namespace Word

/-- Why a step of a calculation has no result. -/
inductive Fault
  /-- A word has no room for it. -/
  | overflow
  /-- The divisor is zero. -/
  | divisionByZero
  /-- A loop has not come to its end after so many rounds. -/
  | unfinished
deriving DecidableEq

/-- The number as an unsigned word. -/
def unsigned (n : Nat) : Except Fault Nat := if n < 2 ^ 128 then .ok n else .error .overflow

/-- The quotient of two words. -/
def quotient (a b : Nat) : Except Fault Nat :=
  if b = 0 then .error .divisionByZero else unsigned (a / b)

/-- The remainder of two words. -/
def remainder (a b : Nat) : Except Fault Nat :=
  if b = 0 then .error .divisionByZero else unsigned (a % b)

/-- The greatest common divisor of two words: as long as the second is not zero, it takes the place
of the first, and the remainder takes its own. -/
def commonDivisor (rounds a b : Nat) : Except Fault Nat :=
  if b = 0 then .ok a
  else
    match rounds with
    | 0 => .error .unfinished
    | rounds + 1 => do
      let r ← remainder a b
      commonDivisor rounds b r

/-- The number as a signed word, if that has room for it. -/
def signed? (i : Int) : Option Int := if FitsSigned 128 i then some i else none

/-- Numerator and denominator of `n / d` in lowest terms, if `d` is not zero and both have room in
signed words. -/
def lowestTerms? (rounds : Nat) (n d : Int) : Except Fault (Option (Int × Int)) :=
  if d = 0 then .ok none
  else do
    let a ← unsigned n.natAbs
    let b ← unsigned d.natAbs
    let g ← commonDivisor rounds a b
    let p ← quotient a g
    let q ← quotient b g
    .ok do
      let numerator ← signed? (if decide (n < 0) = decide (d < 0) then p else -p)
      let denominator ← signed? q
      some (numerator, denominator)

theorem bind_of_ok {α β : Type} {x : Except Fault α} {a : α} (h : x = .ok a) (f : α → Except Fault β) :
    (x >>= f) = f a := by
  rw [h]
  rfl

theorem unsigned_of_lt {n : Nat} (h : n < 2 ^ 128) : unsigned n = .ok n := if_pos h

theorem quotient_of_pos {a b : Nat} (ha : a < 2 ^ 128) (hb : b ≠ 0) : quotient a b = .ok (a / b) := by
  rw [quotient, if_neg hb, unsigned_of_lt (lt_of_le_of_lt (Nat.div_le_self a b) ha)]

theorem remainder_of_pos {a b : Nat} (ha : a < 2 ^ 128) (hb : b ≠ 0) :
    remainder a b = .ok (a % b) := by
  rw [remainder, if_neg hb, unsigned_of_lt (lt_of_le_of_lt (Nat.mod_le a b) ha)]

theorem signed?_of_fits {i : Int} (h : FitsSigned 128 i) : signed? i = some i := if_pos h

theorem signed?_of_not_fits {i : Int} (h : ¬FitsSigned 128 i) : signed? i = none := if_neg h

/-- A remainder is less than half of what was divided, if that is not less than the divisor. -/
theorem two_mul_mod_lt {a b : Nat} (hb : b ≠ 0) (h : b ≤ a) : 2 * (a % b) < a := by
  have hmod : a % b < b := Nat.mod_lt a (Nat.pos_of_ne_zero hb)
  have hle : b ≤ b * (a / b) :=
    Nat.le_mul_of_pos_right b (Nat.div_pos h (Nat.pos_of_ne_zero hb))
  have hsplit := Nat.div_add_mod a b
  omega

theorem commonDivisor_zero (rounds a : Nat) : commonDivisor rounds a 0 = .ok a := by
  rw [commonDivisor.eq_def, if_pos rfl]

/-- One round of the loop. -/
theorem commonDivisor_succ (rounds : Nat) {a b : Nat} (ha : a < 2 ^ 128) (hb : b ≠ 0) :
    commonDivisor (rounds + 1) a b = commonDivisor rounds b (a % b) := by
  rw [commonDivisor, if_neg hb, bind_of_ok (remainder_of_pos ha hb)]

/-- A round keeps the divisors that the words have in common. -/
theorem gcd_mod_right (a b : Nat) : b.gcd (a % b) = a.gcd b := by
  rw [Nat.gcd_comm, ← Nat.gcd_rec, Nat.gcd_comm]

/-- **The loop ends**: two rounds for each bit of the second word are enough, whatever the first. -/
theorem commonDivisor_eq {k : Nat} (hk : k ≤ 128) :
    ∀ {rounds a b : Nat}, 2 * k ≤ rounds → a < 2 ^ 128 → b < 2 ^ k →
      commonDivisor rounds a b = .ok (a.gcd b) := by
  -- Every second word is a remainder of the one before the last, so two rounds take a bit away.
  induction k with
  | zero =>
    intro rounds a b _ _ hb
    obtain rfl : b = 0 := by simpa using hb
    rw [commonDivisor_zero, Nat.gcd_zero_right]
  | succ k ih =>
    intro rounds a b hrounds ha hb
    obtain ⟨rounds, rfl⟩ := Nat.exists_eq_add_of_le' (show 2 ≤ rounds by omega)
    have hb' : b < 2 ^ 128 := lt_of_lt_of_le hb (Nat.pow_le_pow_right Nat.two_pos hk)
    by_cases h0 : b = 0
    · rw [h0, commonDivisor_zero, Nat.gcd_zero_right]
    · have hmod : a % b < b := Nat.mod_lt a (Nat.pos_of_ne_zero h0)
      rw [commonDivisor_succ _ ha h0, ← gcd_mod_right a b]
      by_cases h1 : a % b = 0
      · rw [h1, commonDivisor_zero, Nat.gcd_zero_right]
      · have hhalf := two_mul_mod_lt h1 hmod.le
        rw [commonDivisor_succ _ hb' h1, ← gcd_mod_right b (a % b)]
        refine ih (by omega) (by omega) (lt_trans hmod hb') ?_
        rw [Nat.pow_succ] at hb
        omega

end Word

/-! ### Fractions -/

namespace Rational

variable {n d : Int}

/-- What is calculated for the numerator is that of the number. -/
theorem num_div (hd : d ≠ 0) :
    (if decide (n < 0) = decide (d < 0) then ((n.natAbs / n.natAbs.gcd d.natAbs : Nat) : Int)
      else -((n.natAbs / n.natAbs.gcd d.natAbs : Nat) : Int)) = ((n : ℚ) / d).num := by
  have hgcd : d.gcd n = n.natAbs.gcd d.natAbs := Nat.gcd_comm d.natAbs n.natAbs
  have hdvd : ((n.natAbs.gcd d.natAbs : Nat) : Int) ∣ (n.natAbs : Int) :=
    Int.natCast_dvd_natCast.mpr (Nat.gcd_dvd_left _ _)
  have hsign : d.sign * n =
      if decide (n < 0) = decide (d < 0) then (n.natAbs : Int) else -(n.natAbs : Int) := by
    obtain hneg | hpos := Int.lt_or_gt_of_ne hd
    · rw [Int.sign_eq_neg_one_of_neg hneg]
      split <;> grind
    · rw [Int.sign_eq_one_of_pos hpos]
      split <;> grind
  rw [← Rat.divInt_eq_div, Rat.num_divInt, hgcd, hsign]
  split
  · rw [Int.natCast_ediv]
  · rw [Int.natCast_ediv, Int.neg_ediv_of_dvd hdvd]

/-- What is calculated for the denominator is that of the number. -/
theorem den_div (hd : d ≠ 0) : d.natAbs / n.natAbs.gcd d.natAbs = ((n : ℚ) / d).den := by
  rw [← Rat.divInt_eq_div, Rat.den_divInt, if_neg hd, Int.gcd_comm]
  rfl

theorem eq_of_parts {r r' : Rational} (hnum : r.numerator = r'.numerator)
    (hden : r.denominator = r'.denominator) : r = r' := by
  cases r
  cases r'
  cases hnum
  cases hden
  rfl

/-- **There is a fraction** exactly if `d` is not zero and both parts fit, and it has the parts of
the number. -/
theorem ofInts?_eq_some_iff {r : Rational} :
    ofInts? n d = some r ↔ d ≠ 0 ∧ FitsSigned 128 ((n : ℚ) / d).num ∧
      FitsSigned 128 ((n : ℚ) / d).den ∧
      r.numerator = ((n : ℚ) / d).num ∧ r.denominator = ((n : ℚ) / d).den := by
  rw [ofInts?]
  by_cases hd : d = 0
  · simp [hd]
  · simp only [dif_neg hd, num_div hd, den_div hd]
    cases r with
    | mk numerator denominator _ _ =>
      constructor
      · intro h
        obtain ⟨⟨hnum, hden⟩, heq⟩ := Option.ite_none_right_eq_some.mp h
        cases heq
        exact ⟨hd, hnum, hden, rfl, rfl⟩
      · rintro ⟨-, hnum, hden, rfl, rfl⟩
        rw [if_pos ⟨hnum, hden⟩]

/-- **No step of the calculation on words faults**, and it comes to the fraction. -/
theorem lowestTerms?_eq (hn : FitsSigned 128 n) (hd : FitsSigned 128 d) {rounds : Nat}
    (hrounds : 256 ≤ rounds) :
    Word.lowestTerms? rounds n d =
      .ok ((ofInts? n d).map fun r => (r.numerator, (r.denominator : Int))) := by
  rw [Word.lowestTerms?, ofInts?]
  by_cases h0 : d = 0
  · rw [if_pos h0, dif_pos h0]
    rfl
  · have ha : n.natAbs < 2 ^ 128 := by
      simp only [FitsSigned] at hn
      omega
    have hb : d.natAbs < 2 ^ 128 := by
      simp only [FitsSigned] at hd
      omega
    have hg : n.natAbs.gcd d.natAbs ≠ 0 := (Nat.gcd_pos_of_pos_right _ (by omega)).ne'
    have hcommon := Word.commonDivisor_eq (le_refl 128) (show 2 * 128 ≤ rounds by omega) ha hb
    rw [if_neg h0, dif_neg h0, Word.bind_of_ok (Word.unsigned_of_lt ha),
      Word.bind_of_ok (Word.unsigned_of_lt hb), Word.bind_of_ok hcommon,
      Word.bind_of_ok (Word.quotient_of_pos ha hg), Word.bind_of_ok (Word.quotient_of_pos hb hg)]
    simp only [num_div h0, den_div h0]
    by_cases hnum : FitsSigned 128 ((n : ℚ) / d).num
    · rw [Word.signed?_of_fits hnum]
      by_cases hden : FitsSigned 128 ((n : ℚ) / d).den
      · rw [Word.signed?_of_fits hden, if_pos ⟨hnum, hden⟩]
        rfl
      · rw [Word.signed?_of_not_fits hden, if_neg fun h => hden h.2]
        rfl
    · rw [Word.signed?_of_not_fits hnum, if_neg fun h => hnum h.1]
      rfl

/-- **Fractions are exact at the limits.** Of two integers that 128 bits hold there is a fraction
exactly if the second is not zero and the number has, in lowest terms with a positive denominator, a
numerator and a denominator that 128 bits hold. It has these for its parts. They are calculated on
words, where no result is too large for its word, no divisor is zero and the loop for the common
divisor has come to its end after 256 rounds. Two fractions are equal exactly if they are the same
number. -/
theorem ofInts?_exact (hn : FitsSigned 128 n) (hd : FitsSigned 128 d) :
    ((∃ r, ofInts? n d = some r) ↔
      d ≠ 0 ∧ FitsSigned 128 ((n : ℚ) / d).num ∧ (((n : ℚ) / d).den : Int) ≤ 2 ^ 127 - 1) ∧
    (∀ r, ofInts? n d = some r →
      r.numerator = ((n : ℚ) / d).num ∧ r.denominator = ((n : ℚ) / d).den ∧
      r.numerator * d = n * r.denominator ∧ r.numerator.gcd r.denominator = 1 ∧
      0 < r.denominator ∧ (n = 0 → r.numerator = 0 ∧ r.denominator = 1)) ∧
    (∀ rounds, 256 ≤ rounds → Word.lowestTerms? rounds n d =
      .ok ((ofInts? n d).map fun r => (r.numerator, (r.denominator : Int)))) ∧
    ∀ (n' d' : Int) (r r' : Rational), FitsSigned 128 n' → FitsSigned 128 d' →
      ofInts? n d = some r → ofInts? n' d' = some r' → (r = r' ↔ n * d' = n' * d) := by
  refine ⟨?_, ?_, fun rounds hrounds => lowestTerms?_eq hn hd hrounds, ?_⟩
  · constructor
    · rintro ⟨r, hr⟩
      obtain ⟨h0, hnum, hden, -, -⟩ := ofInts?_eq_some_iff.mp hr
      exact ⟨h0, hnum, Int.le_sub_one_of_lt hden.2⟩
    · rintro ⟨h0, hnum, hden⟩
      have hfits : FitsSigned 128 ((n : ℚ) / d).den := ⟨by omega, Int.lt_of_le_sub_one hden⟩
      have hreduced := ((n : ℚ) / d).reduced
      exact ⟨⟨_, _, ((n : ℚ) / d).den_pos, hreduced⟩,
        ofInts?_eq_some_iff.mpr ⟨h0, hnum, hfits, rfl, rfl⟩⟩
  · intro r hr
    obtain ⟨h0, -, -, hnum, hden⟩ := ofInts?_eq_some_iff.mp hr
    refine ⟨hnum, hden, ?_, r.reduced, r.denominator_pos, ?_⟩
    · have hden0 : (r.denominator : ℚ) ≠ 0 := Nat.cast_ne_zero.mpr r.denominator_pos.ne'
      have hvalue : (r.numerator : ℚ) / r.denominator = n / d := by
        rw [hnum, hden, Rat.num_div_den]
      rw [div_eq_div_iff hden0 (Int.cast_ne_zero.mpr h0)] at hvalue
      exact_mod_cast hvalue
    · rintro rfl
      rw [hnum, hden, Int.cast_zero, zero_div]
      exact ⟨rfl, rfl⟩
  · intro n' d' r r' _ _ hr hr'
    obtain ⟨h0, -, -, hnum, hden⟩ := ofInts?_eq_some_iff.mp hr
    obtain ⟨h0', -, -, hnum', hden'⟩ := ofInts?_eq_some_iff.mp hr'
    have hsame : r = r' ↔ (n : ℚ) / d = n' / d' := by
      constructor
      · rintro rfl
        exact Rat.ext (hnum.symm.trans hnum') (hden.symm.trans hden')
      · intro h
        rw [← h] at hnum' hden'
        exact eq_of_parts (hnum.trans hnum'.symm) (hden.trans hden'.symm)
    rw [hsame, div_eq_div_iff (Int.cast_ne_zero.mpr h0) (Int.cast_ne_zero.mpr h0')]
    exact_mod_cast Iff.rfl

/-- The least integer over itself is one, and over `-1` it has no room. -/
theorem ofInts?_exact_least :
    let n : Int := -2 ^ 127
    let one : Rational := ⟨1, 1, Nat.one_pos, rfl⟩
    FitsSigned 128 n ∧ FitsSigned 128 (-1) ∧ FitsSigned 128 3 ∧ ofInts? n n = some one ∧
      Word.lowestTerms? 256 n n = .ok (some (1, 1)) ∧
      (¬∃ r, ofInts? n (-1) = some r) ∧ Word.lowestTerms? 256 n (-1) = .ok none ∧
      (one = one ↔ n * 3 = 3 * n) := by
  intro n one
  have hn : FitsSigned 128 n := by decide
  have hminus : FitsSigned 128 (-1) := by decide
  have hthree : FitsSigned 128 3 := by decide
  have hself : ofInts? n n = some one := by decide +kernel
  have hover : ofInts? n (-1) = none := by decide +kernel
  obtain ⟨-, -, hwords, hequal⟩ := ofInts?_exact hn hn
  obtain ⟨hsome, -, hwords', -⟩ := ofInts?_exact hn hminus
  have hnone : ¬FitsSigned 128 ((n : ℚ) / (-1 : Int)).num := by
    have hnum : ((n : ℚ) / (-1 : Int)).num = 2 ^ 127 := by
      simp only [n]
      norm_num
    rw [hnum]
    decide
  refine ⟨hn, hminus, hthree, hself, ?_, fun h => hnone (hsome.mp h).2.1, ?_,
    hequal 3 3 one one hthree hthree hself (by decide +kernel)⟩
  · rw [hwords 256 le_rfl, hself]
    rfl
  · rw [hwords' 256 le_rfl, hover]
    rfl

end Rational

end CborGraph
