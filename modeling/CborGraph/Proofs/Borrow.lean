import CborGraph.Proofs.Numeral

/-!
# One less

The argument of a negative integer is calculated on its bytes: from the last on, zeros borrow and
become 255, and the first byte that is not zero becomes one less, which ends the borrowing. Only a
string of zeros would borrow beyond its first byte and wrap around, `Bytes.decrement_cases`, and the
magnitude of a negative integer is none. If the first byte becomes zero it is stripped.

Main statement: `BigInt.argument_exact`.
-/

namespace CborGraph

namespace Bytes

/-- A string of zeros borrows beyond its first byte. -/
theorem decrement_zeros (k : Nat) :
    decrement (List.replicate k 0) = (true, List.replicate k 255) := by
  induction k with
  | zero => rfl
  | succ k ih => rw [List.replicate_succ, decrement, ih, List.replicate_succ]; rfl

/-- A byte that is not zero ends the borrowing of the zeros after it. -/
theorem decrement_last {b : UInt8} (hb : b ≠ 0) (k : Nat) :
    decrement (b :: List.replicate k 0) = (false, (b - 1) :: List.replicate k 255) := by
  simp only [decrement, decrement_zeros, if_neg hb]

/-- Bytes before the end of the borrowing are left as they are. -/
theorem decrement_append {bs : Bytes} (h : (decrement bs).1 = false) (front : Bytes) :
    decrement (front ++ bs) = (false, front ++ (decrement bs).2) := by
  induction front with
  | nil => exact Prod.ext h rfl
  | cons b front ih => rw [List.cons_append, decrement, ih, List.cons_append]

/-- A string is zeros, or it has a last byte that is not zero. -/
theorem exists_last_ne_zero (bs : Bytes) :
    bs = List.replicate bs.length 0 ∨
      ∃ (front : Bytes) (b : UInt8) (k : Nat), b ≠ 0 ∧ bs = front ++ b :: List.replicate k 0 := by
  induction bs with
  | nil => exact .inl rfl
  | cons c bs ih =>
    obtain hzeros | ⟨front, b, k, hb, rfl⟩ := ih
    · by_cases hc : c = 0
      · left
        rw [hc, List.length_cons, List.replicate_succ, ← hzeros]
      · exact .inr ⟨[], c, bs.length, hc, by rw [List.nil_append, ← hzeros]⟩
    · exact .inr ⟨c :: front, b, k, hb, rfl⟩

/-- **Where the borrowing ends**: beyond the first byte if all are zeros, and otherwise at the last
that is not zero. -/
theorem decrement_cases (bs : Bytes) :
    (bs = List.replicate bs.length 0 ∧ decrement bs = (true, List.replicate bs.length 255)) ∨
      ∃ (front : Bytes) (b : UInt8) (k : Nat), b ≠ 0 ∧ bs = front ++ b :: List.replicate k 0 ∧
        decrement bs = (false, front ++ (b - 1) :: List.replicate k 255) := by
  obtain hzeros | ⟨front, b, k, hb, rfl⟩ := exists_last_ne_zero bs
  · refine .inl ⟨hzeros, ?_⟩
    conv_lhs => rw [hzeros, decrement_zeros]
  · have hlast := decrement_last hb k
    refine .inr ⟨front, b, k, hb, rfl, ?_⟩
    rw [decrement_append (by rw [hlast]), hlast]

/-- All bytes 255 are the greatest number of their width. -/
theorem toNat_replicate_255 (k : Nat) : toNat (List.replicate k 255) + 1 = 256 ^ k := by
  have hborrow := toNat_decrement (List.replicate k 0)
  have hlt := toNat_lt (List.replicate k 255)
  simp only [decrement_zeros, if_true, List.length_replicate] at hborrow hlt
  omega

end Bytes

namespace BigInt

variable (n : BigInt)

/-- The magnitude of a negative integer is not made of zeros, so that nothing is borrowed beyond its
first byte. -/
theorem decrement_magnitude {n : BigInt} (h : n.negative = true) :
    ∃ (front : Bytes) (b : UInt8) (k : Nat), b ≠ 0 ∧ n.magnitude = front ++ b :: List.replicate k 0 ∧
      Bytes.decrement n.magnitude = (false, front ++ (b - 1) :: List.replicate k 255) := by
  obtain ⟨hzeros, hborrow⟩ | hlast := Bytes.decrement_cases n.magnitude
  · exfalso
    have hpos := magnitude_pos h
    have hd := Bytes.toNat_decrement n.magnitude
    rw [hborrow, if_pos rfl] at hd
    have hmax := Bytes.toNat_replicate_255 n.magnitude.length
    simp only at hd
    omega
  · exact hlast

/-- **Nothing wraps around**: one less than the magnitude is not the greatest number of its width. -/
theorem decrement_magnitude_ne {n : BigInt} (h : n.negative = true) :
    (Bytes.decrement n.magnitude).2 ≠ List.replicate n.magnitude.length 255 := by
  intro heq
  have hpos := magnitude_pos h
  have hone := Bytes.toNat_decrement_of_pos hpos
  have hlt := Bytes.toNat_lt n.magnitude
  have hmax := Bytes.toNat_replicate_255 n.magnitude.length
  rw [heq] at hone
  omega

theorem argument_eq_nil_iff : n.argument = [] ↔ n.toInt = 0 ∨ n.toInt = -1 := by
  rw [← Bytes.toNat_eq_zero n.head?_argument, toNat_argument, argumentOf]
  split <;> omega

/-- **The argument of an integer is exact.** It is the shortest numeral of the integer, or of `-1 - z`
for a negative `z`, and has no byte for zero. For a negative integer the borrowing ends at the last
byte of the magnitude that is not zero: it becomes one less, the zeros after it become 255, and what
comes before stays. So the result is never all 255 in as many bytes. -/
theorem argument_exact :
    (0 ≤ n.toInt → (Bytes.toNat n.argument : Int) = n.toInt) ∧
    (n.toInt < 0 → (Bytes.toNat n.argument : Int) = -1 - n.toInt) ∧
    n.argument.head? ≠ some 0 ∧ (n.argument = [] ↔ n.toInt = 0 ∨ n.toInt = -1) ∧
    (∀ bs : Bytes, bs.head? ≠ some 0 → Bytes.toNat bs = Bytes.toNat n.argument → bs = n.argument) ∧
    (n.toInt < 0 →
      (∃ (front : Bytes) (b : UInt8) (k : Nat), b ≠ 0 ∧
        n.magnitude = front ++ b :: List.replicate k 0 ∧
        Bytes.decrement n.magnitude = (false, front ++ (b - 1) :: List.replicate k 255)) ∧
      (Bytes.decrement n.magnitude).2 ≠ List.replicate n.magnitude.length 255) := by
  refine ⟨fun h => ?_, fun h => ?_, n.head?_argument, n.argument_eq_nil_iff,
    fun bs hbs heq => Bytes.eq_of_toNat_eq hbs n.head?_argument heq, fun h => ?_⟩
  · rw [toNat_argument, argumentOf, if_neg (by omega), Int.toNat_of_nonneg h]
  · rw [toNat_argument, argumentOf, if_pos h, Int.toNat_of_nonneg (by omega)]
  · rw [toInt_neg_iff] at h
    exact ⟨decrement_magnitude h, decrement_magnitude_ne h⟩

/-- For minus 65536 two zeros borrow from the one before them, which becomes zero and is stripped. -/
theorem argument_exact_power :
    let n := ofBytes true [0, 1, 0, 0]
    n.toInt < 0 ∧ (Bytes.toNat n.argument : Int) = -1 - n.toInt ∧ n.argument = [255, 255] ∧
      (Bytes.decrement n.magnitude).2 = [0, 255, 255] ∧
      (Bytes.decrement n.magnitude).2 ≠ List.replicate n.magnitude.length 255 := by
  intro n
  have hneg : n.toInt < 0 := by decide
  obtain ⟨-, hvalue, -, -, -, hborrow⟩ := argument_exact n
  exact ⟨hneg, hvalue hneg, by decide, by decide, (hborrow hneg).2⟩

end BigInt

end CborGraph
