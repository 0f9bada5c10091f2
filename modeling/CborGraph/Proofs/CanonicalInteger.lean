import CborGraph.Proofs.Literals
import CborGraph.Proofs.Magnitude

/-!
# Integers of any size are exact and canonical

An integer is made of a literal, of a sign and bytes, or of an integer of the machine. Whichever it
is, it is the number that was meant, and what represents it is the one representation of that number:
no zero leads the magnitude, and zero has no sign. So integers can be compared by what represents them,
and an integer fits in 128 bits exactly if its number does.

No step of reading digits leaves this form, so nothing remains to be stripped at their end:
`BigInt.magnitude_ofDigits`.

Main statement: `BigInt.exact_canonical`.
-/

namespace CborGraph

namespace BigInt

/-! ### One representation -/

/-- The absolute value is what the magnitude stands for. -/
theorem natAbs_toInt (n : BigInt) : n.toInt.natAbs = Bytes.toNat n.magnitude := by
  rw [toInt]
  split
  · rw [Int.natAbs_neg, Int.natAbs_natCast]
  · rw [Int.natAbs_natCast]

/-- The magnitude is the shortest numeral of the absolute value. -/
theorem magnitude_eq (n : BigInt) : n.magnitude = Bytes.ofNat n.toInt.natAbs := by
  rw [natAbs_toInt, Bytes.ofNat_toNat n.minimal]

theorem negative_eq (n : BigInt) : n.negative = decide (n.toInt < 0) := by
  rw [Bool.eq_iff_iff, decide_eq_true_iff]
  exact (toInt_neg_iff n).symm

theorem toInt_injective : Function.Injective toInt := by
  intro n m h
  have hnegative : n.negative = m.negative := by rw [negative_eq, negative_eq, h]
  have hmagnitude : n.magnitude = m.magnitude := by rw [magnitude_eq, magnitude_eq, h]
  cases n
  cases m
  subst hnegative hmagnitude
  rfl

theorem ofInt_toInt (n : BigInt) : ofInt n.toInt = n := toInt_injective (toInt_ofInt n.toInt)

/-- The sixteen bytes of an integer of the machine make the same integer as the shortest numeral. -/
theorem ofBytes_fixed {i : Int} (h : i.natAbs < 256 ^ 16) :
    ofBytes (i < 0) (Bytes.fixed 16 i.natAbs) = ofInt i := by
  apply toInt_injective
  rw [ofInt, toInt_ofBytes, toInt_ofBytes, Bytes.toNat_fixed, Bytes.toNat_ofNat, Nat.mod_eq_of_lt h]

/-! ### Digits -/

/-- The magnitude stays minimal from digit to digit. -/
theorem head?_foldl_mulAdd (digits : List Char) {bs : Bytes} (h : bs.head? ≠ some 0) :
    (digits.foldl (fun m c => Bytes.mulAdd 10 (UInt8.ofNat (Literal.digit c)) m) bs).head? ≠ some 0 := by
  induction digits generalizing bs with
  | nil => exact h
  | cons c digits ih =>
    rw [List.foldl_cons]
    apply ih
    rw [Bytes.mulAdd]
    exact Bytes.head?_stripZeros _

/-- **After the last digit nothing is left to strip**: the magnitude is what the digits made of it. -/
theorem magnitude_ofDigits (negative : Bool) (digits : List Char) :
    (ofDigits negative digits).magnitude =
      digits.foldl (fun m c => Bytes.mulAdd 10 (UInt8.ofNat (Literal.digit c)) m) [] := by
  have hempty : ([] : Bytes).head? ≠ some 0 := by simp
  exact Bytes.stripZeros_of_head (head?_foldl_mulAdd digits hempty)

/-- Digits after a sign are read as their number with this sign. -/
theorem toInt_ofDigits_sign (s : Literal.Sign) {digits : List Char} (h : ∀ c ∈ digits, c.isDigit = true) :
    (ofDigits s.isNegative digits).toInt = s.apply (Literal.numeral digits) := by
  rw [toInt_ofDigits _ (List.all_eq_true.mpr h)]
  rfl

/-- **What is read** are the literals of integers. -/
theorem ofChars?_eq_some_iff {cs : List Char} {n : BigInt} :
    ofChars? cs = some n ↔ ∃ l : Literal.Integer, cs = l.text ∧ n.toInt = l.value := by
  have hread : ∀ l : Literal.Integer, ofChars? l.text = some (ofDigits l.sign.isNegative l.digits) := by
    intro l
    simp only [ofChars?, Literal.Integer.sign_text, l.isNumeral_digits, if_true]
  constructor
  · intro h
    by_cases hnumeral : Literal.isNumeral (Literal.sign cs).2 = true
    · obtain ⟨l, rfl⟩ := Literal.Integer.exists_text_eq hnumeral
      rw [hread, Option.some_inj] at h
      exact ⟨l, rfl, h ▸ toInt_ofDigits_sign l.sign l.isDigit⟩
    · simp [ofChars?, hnumeral] at h
  · rintro ⟨l, rfl, hn⟩
    rw [hread, Option.some_inj]
    apply toInt_injective
    rw [toInt_ofDigits_sign l.sign l.isDigit, hn]
    rfl

theorem parse_eq_ok_iff {s : String} {n : BigInt} : parse s = .ok n ↔ ofChars? s.toList = some n := by
  rw [parse]
  cases ofChars? s.toList <;> simp

/-- A text that is not read is quoted by the error. -/
theorem parse_total (s : String) : (∃ n, parse s = .ok n) ∨ parse s = .error ⟨s⟩ := by
  rw [parse]
  cases ofChars? s.toList with
  | some n => exact .inl ⟨n, rfl⟩
  | none => exact .inr rfl

/-! ### 128 bits -/

/-- The magnitude as a word of sixteen bytes, if it has no more: it is put at their end. -/
def word (n : BigInt) : Bytes := List.replicate (16 - n.magnitude.length) 0 ++ n.magnitude

theorem toNat_replicate_zero_append (k : Nat) (bs : Bytes) :
    Bytes.toNat (List.replicate k 0 ++ bs) = Bytes.toNat bs := by
  induction k with
  | zero => rfl
  | succ k ih =>
    rw [List.replicate_succ, List.cons_append, Bytes.toNat_cons, ih]
    simp

/-- **Whether an integer fits is seen from its word**: the least integer of 128 bits is the negative of
`2 ^ 127`, which is itself too large. -/
theorem toInt128?_eq_word (n : BigInt) :
    n.toInt128? =
      if 16 < n.magnitude.length then none
      else if n.negative then
        if Bytes.toNat n.word ≤ 2 ^ 127 then some (-(Bytes.toNat n.word : Int)) else none
      else if Bytes.toNat n.word < 2 ^ 127 then some (Bytes.toNat n.word : Int) else none := by
  have hword : Bytes.toNat n.word = Bytes.toNat n.magnitude := toNat_replicate_zero_append _ _
  rw [toInt128?, hword]
  by_cases hlong : 16 < n.magnitude.length
  · have hnot : ¬(n.magnitude.length ≤ 16 ∧ FitsSigned 128 n.toInt) := fun h => by omega
    rw [if_pos hlong, if_neg hnot]
  · have hshort : n.magnitude.length ≤ 16 := by omega
    rw [if_neg hlong]
    simp only [hshort, true_and, toInt]
    cases n.negative with
    | true =>
      have hfits : FitsSigned 128 (-(Bytes.toNat n.magnitude : Int)) ↔
          Bytes.toNat n.magnitude ≤ 2 ^ 127 := by omega
      simp only [if_true, hfits]
    | false =>
      have hfits : FitsSigned 128 (Bytes.toNat n.magnitude : Int) ↔
          Bytes.toNat n.magnitude < 2 ^ 127 := by omega
      simp only [Bool.false_eq_true, if_false, hfits]

/-- More than sixteen bytes are too many whatever they are. -/
theorem length_magnitude_le {n : BigInt} (h : FitsSigned 128 n.toInt) : n.magnitude.length ≤ 16 := by
  rw [magnitude_eq, Bytes.length_ofNat_le_iff]
  omega

/-- **An integer fits in 128 bits** exactly if its number does. -/
theorem toInt128?_eq_some_iff {n : BigInt} {v : Int} :
    n.toInt128? = some v ↔ n.toInt = v ∧ FitsSigned 128 v := by
  rw [toInt128?]
  constructor
  · intro h
    split at h
    · next hfits =>
      rw [Option.some_inj] at h
      subst h
      exact ⟨rfl, hfits.2⟩
    · cases h
  · rintro ⟨rfl, hfits⟩
    rw [if_pos ⟨length_magnitude_le hfits, hfits⟩]

/-! ### The theorem -/

/-- **Integers are exact and canonical.** -/
theorem exact_canonical :
    (∀ (s : String) (n : BigInt), parse s = .ok n ↔
        ∃ l : Literal.Integer, s.toList = l.text ∧ n.toInt = l.value) ∧
      (∀ s : String, (∃ n, parse s = .ok n) ∨ parse s = .error ⟨s⟩) ∧
      (∀ (negative : Bool) (bs : Bytes), (ofBytes negative bs).toInt =
        if negative then -(Bytes.toNat bs : Int) else Bytes.toNat bs) ∧
      (∀ i : Int, -2 ^ 127 ≤ i → i < 2 ^ 128 →
        (ofBytes (i < 0) (Bytes.fixed 16 i.natAbs)).toInt = i ∧
          ofBytes (i < 0) (Bytes.fixed 16 i.natAbs) = ofInt i) ∧
      (∀ (negative : Bool) (digits : List Char), (ofDigits negative digits).magnitude =
        digits.foldl (fun m c => Bytes.mulAdd 10 (UInt8.ofNat (Literal.digit c)) m) []) ∧
      (∀ n : BigInt, n.magnitude.head? ≠ some 0 ∧ n.magnitude = Bytes.ofNat n.toInt.natAbs ∧
        (n.negative = true ↔ n.toInt < 0)) ∧
      (∀ n m : BigInt, n = m ↔ n.toInt = m.toInt) ∧
      (∀ (n : BigInt) (v : Int), n.toInt128? = some v ↔ n.toInt = v ∧ FitsSigned 128 v) ∧
      ∀ (n : BigInt) (v : Int), n.toInt128? = some v → ofInt v = n := by
  refine ⟨fun s n => ?_, parse_total, toInt_ofBytes, fun i hleast hgreatest => ?_, magnitude_ofDigits,
    fun n => ⟨n.minimal, magnitude_eq n, (toInt_neg_iff n).symm⟩, fun n m => toInt_injective.eq_iff.symm,
    fun n v => toInt128?_eq_some_iff, fun n v h => ?_⟩
  · rw [parse_eq_ok_iff, ofChars?_eq_some_iff]
  · have hfixed : ofBytes (i < 0) (Bytes.fixed 16 i.natAbs) = ofInt i := ofBytes_fixed (by omega)
    exact ⟨by rw [hfixed, toInt_ofInt], hfixed⟩
  · obtain ⟨rfl, -⟩ := toInt128?_eq_some_iff.mp h
    exact ofInt_toInt n

/-- Zeros behind a minus are zero, and of the two powers that limit 128 bits one fits. -/
theorem exact_canonical_at_limits :
    (∃ n, parse "-000" = .ok n ∧ n = ofBytes false []) ∧
      (ofBytes true (Bytes.fixed 16 (2 ^ 127))).toInt = -2 ^ 127 ∧
      (ofInt (-2 ^ 127)).toInt128? = some (-2 ^ 127) ∧ (ofInt (2 ^ 127)).toInt128? = none := by
  obtain ⟨hparse, -, -, hmachine, -, -, -, hfits, -⟩ := exact_canonical
  have hleast := (hmachine (-2 ^ 127) (by decide) (by decide)).1
  rw [show (-2 ^ 127 : Int).natAbs = 2 ^ 127 by decide] at hleast
  refine ⟨⟨_, (hparse "-000" _).mpr ⟨⟨.minus, ['0', '0', '0'], by simp, by simp⟩, by decide, by decide⟩,
    rfl⟩, hleast, (hfits _ _).mpr ⟨toInt_ofInt _, by decide⟩, ?_⟩
  rw [Option.eq_none_iff_forall_ne_some]
  intro v h
  obtain ⟨rfl, hv⟩ := (hfits _ v).mp h
  rw [toInt_ofInt] at hv
  omega

end BigInt

end CborGraph
