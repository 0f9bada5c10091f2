import CborGraph.Decimal
import Mathlib.Algebra.Order.Ring.Nat
import Mathlib.Data.List.TakeWhile
import Mathlib.Tactic.Ring

/-!
# How literals are written

Literals as they are put together: a sign, which may be absent, and digits; a part before a mark and
a part after it; a text between blanks. What is put together in this way is taken apart again by
`Literal.sign`, `Literal.split` and `Text.trim`, and whatever these take apart was put together so.
-/

namespace CborGraph

namespace Literal

/-! ### Signs -/

/-- How the sign of a number is written. -/
inductive Sign
  /-- It is left out. -/
  | absent
  /-- As a plus. -/
  | plus
  /-- As a minus. -/
  | minus
deriving DecidableEq

namespace Sign

/-- The sign as it is written. -/
def text : Sign → List Char
  | absent => []
  | plus => ['+']
  | minus => ['-']

/-- The number is negative, or zero. -/
def isNegative : Sign → Bool
  | minus => true
  | _ => false

/-- The integer with this sign and this absolute value. -/
def apply (s : Sign) (n : Nat) : Int := if s.isNegative then -(n : Int) else n

end Sign

/-- A sign is read if what follows it does not begin with another. -/
theorem sign_text_append (s : Sign) {cs : List Char} (h : ∀ c ∈ cs.head?, c ≠ '-' ∧ c ≠ '+') :
    sign (s.text ++ cs) = (s.isNegative, cs) := by
  cases s with
  | plus => rfl
  | minus => rfl
  | absent =>
    rw [Sign.text, List.nil_append, sign]
    · rfl
    · rintro rest rfl
      exact (h '-' rfl).1 rfl
    · rintro rest rfl
      exact (h '+' rfl).2 rfl

/-- Every literal has a sign, in one of the three ways. -/
theorem exists_sign (cs : List Char) :
    ∃ s : Sign, cs = s.text ++ (sign cs).2 ∧ s.isNegative = (sign cs).1 := by
  unfold sign
  split
  · exact ⟨.minus, rfl, rfl⟩
  · exact ⟨.plus, rfl, rfl⟩
  · exact ⟨.absent, rfl, rfl⟩

/-! ### Digits -/

theorem isNumeral_iff {cs : List Char} :
    isNumeral cs = true ↔ cs ≠ [] ∧ ∀ c ∈ cs, c.isDigit = true := by
  simp [isNumeral]

/-- A character that is not a digit is none of the digits. -/
theorem ne_of_isDigit {c d : Char} (h : c.isDigit = true) (hd : d.isDigit = false) : c ≠ d := by
  rintro rfl
  rw [h] at hd
  cases hd

/-- Digits begin with no sign. -/
theorem sign_text_append_digits (s : Sign) {digits : List Char}
    (h : ∀ c ∈ digits, c.isDigit = true) : sign (s.text ++ digits) = (s.isNegative, digits) := by
  apply sign_text_append
  intro c hc
  have hdigit := h c (List.mem_of_mem_head? hc)
  exact ⟨ne_of_isDigit hdigit rfl, ne_of_isDigit hdigit rfl⟩

/-- What stands before other digits counts for as much as their number says. -/
theorem numeral_append (cs ds : List Char) :
    numeral (cs ++ ds) = numeral cs * 10 ^ ds.length + numeral ds := by
  have hfold : ∀ n, ds.foldl (fun n c => n * 10 + digit c) n = n * 10 ^ ds.length + numeral ds := by
    induction ds with
    | nil => simp [numeral]
    | cons d ds ih =>
      intro n
      have hcons : numeral (d :: ds) = ds.foldl (fun n c => n * 10 + digit c) (0 * 10 + digit d) := rfl
      rw [List.foldl_cons, ih, hcons, ih, List.length_cons]
      ring
  rw [numeral, List.foldl_append, hfold]
  rfl

/-! ### Integers -/

/-- A literal that stands for an integer. -/
structure Integer where
  /-- The sign. -/
  sign : Sign
  /-- The digits after the sign. -/
  digits : List Char
  /-- There is one digit at least. -/
  ne_nil : digits ≠ []
  /-- The digits are those of ASCII. -/
  isDigit : ∀ c ∈ digits, c.isDigit = true

namespace Integer

/-- The literal as it is written. -/
def text (l : Integer) : List Char := l.sign.text ++ l.digits

/-- The integer that the literal stands for. -/
def value (l : Integer) : Int := l.sign.apply (numeral l.digits)

theorem isNumeral_digits (l : Integer) : isNumeral l.digits = true :=
  isNumeral_iff.mpr ⟨l.ne_nil, l.isDigit⟩

@[simp] theorem sign_text (l : Integer) : Literal.sign l.text = (l.sign.isNegative, l.digits) :=
  sign_text_append_digits l.sign l.isDigit

/-- A text with a numeral after its sign is the literal of an integer. -/
theorem exists_text_eq {cs : List Char} (h : isNumeral (Literal.sign cs).2 = true) :
    ∃ l : Integer, cs = l.text := by
  obtain ⟨hne, hdigit⟩ := isNumeral_iff.mp h
  obtain ⟨s, hcs, -⟩ := exists_sign cs
  exact ⟨⟨s, _, hne, hdigit⟩, hcs⟩

end Integer

/-- **What is read as an integer** are the literals of integers, and each is read as the one that it
stands for. -/
theorem int?_eq_some_iff {cs : List Char} {i : Int} :
    int? cs = some i ↔ ∃ l : Integer, cs = l.text ∧ i = l.value := by
  have hread : ∀ l : Integer, int? l.text = some l.value := fun l => by
    simp only [int?, Integer.sign_text, Integer.isNumeral_digits, if_true]
    rfl
  constructor
  · intro h
    by_cases hnumeral : isNumeral (sign cs).2 = true
    · obtain ⟨l, rfl⟩ := Integer.exists_text_eq hnumeral
      rw [hread, Option.some_inj] at h
      exact ⟨l, rfl, h.symm⟩
    · simp [int?, hnumeral] at h
  · rintro ⟨l, rfl, rfl⟩
    exact hread l

/-! ### Marks -/

section Split

variable {p : Char → Bool} {cs before rest : List Char} {c : Char}

theorem split_of_forall (h : ∀ c ∈ cs, p c = false) : split p cs = (cs, none) := by
  have htake : cs.takeWhile (!p ·) = cs := by simpa [List.takeWhile_eq_self_iff] using h
  have hdrop : cs.dropWhile (!p ·) = [] := by simpa [List.dropWhile_eq_nil_iff] using h
  rw [split, htake, hdrop]

theorem split_append (h : ∀ c ∈ before, p c = false) (hc : p c = true) :
    split p (before ++ c :: rest) = (before, some rest) := by
  have hbefore : ∀ c ∈ before, (!p c) = true := by simpa using h
  rw [split, List.takeWhile_append_of_pos hbefore, List.dropWhile_append_of_pos hbefore]
  simp [hc]

/-- A text that is not cut has no mark. -/
theorem eq_of_split_none (h : split p cs = (before, none)) :
    cs = before ∧ ∀ c ∈ before, p c = false := by
  simp only [split, Prod.mk.injEq] at h
  obtain ⟨rfl, hrest⟩ := h
  have hdrop : cs.dropWhile (!p ·) = [] := by
    cases hd : cs.dropWhile (!p ·) with
    | nil => rfl
    | cons c rest => simp [hd] at hrest
  have hforall : ∀ c ∈ cs, p c = false := by simpa [List.dropWhile_eq_nil_iff] using hdrop
  have htake : cs.takeWhile (!p ·) = cs := by simpa [List.takeWhile_eq_self_iff] using hforall
  exact ⟨htake.symm, by rwa [htake]⟩

/-- A text that is cut is put together of what stands before the mark, the mark and the rest. -/
theorem eq_of_split_some (h : split p cs = (before, some rest)) :
    ∃ c, p c = true ∧ cs = before ++ c :: rest ∧ ∀ c ∈ before, p c = false := by
  simp only [split, Prod.mk.injEq] at h
  obtain ⟨rfl, hrest⟩ := h
  cases hd : cs.dropWhile (!p ·) with
  | nil => simp [hd] at hrest
  | cons c rest' =>
    have hhead := List.head?_dropWhile_not (!p ·) cs
    rw [hd] at hhead hrest
    simp only [Option.some_inj] at hrest
    refine ⟨c, by simpa using hhead, ?_, fun c hc => by simpa using List.mem_takeWhile_imp hc⟩
    rw [← hrest, ← hd, List.takeWhile_append_dropWhile]

end Split

end Literal

/-! ### Blanks -/

namespace Text

/-- The text is what stands between blanks. -/
def Trims (cs body : List Char) : Prop :=
  ∃ before after : List Char, cs = before ++ body ++ after ∧
    (∀ c ∈ before, isBlank c = true) ∧ ∀ c ∈ after, isBlank c = true

/-- Trimming takes away nothing but blanks. -/
theorem trims_trim (cs : List Char) : Trims cs (trim cs) := by
  refine ⟨cs.takeWhile isBlank, ((cs.dropWhile isBlank).reverse.takeWhile isBlank).reverse, ?_,
    fun c hc => List.mem_takeWhile_imp hc, fun c hc => List.mem_takeWhile_imp (List.mem_reverse.mp hc)⟩
  rw [trim, List.append_assoc, ← List.reverse_append, List.takeWhile_append_dropWhile,
    List.reverse_reverse, List.takeWhile_append_dropWhile]

/-- A text without blanks is what is left when it is trimmed. -/
theorem trim_of_trims {cs body : List Char} (h : Trims cs body)
    (hbody : ∀ c ∈ body, isBlank c = false) : trim cs = body := by
  obtain ⟨before, after, rfl, hbefore, hafter⟩ := h
  have hkept : ∀ rest : List Char, (∀ c ∈ rest, isBlank c = false) → rest.dropWhile isBlank = rest := by
    intro rest hrest
    cases rest with
    | nil => rfl
    | cons c rest => simp [hrest c List.mem_cons_self]
  -- A text of blanks alone is taken away at the front, with a body the blanks after it stay.
  have hfront : (before ++ body ++ after).dropWhile isBlank = (body ++ after).dropWhile isBlank := by
    rw [List.append_assoc, List.dropWhile_append_of_pos hbefore]
  have hback : (body ++ after).reverse.dropWhile isBlank = body.reverse := by
    rw [List.reverse_append, List.dropWhile_append_of_pos fun c hc => hafter c (List.mem_reverse.mp hc)]
    exact hkept _ fun c hc => hbody c (List.mem_reverse.mp hc)
  cases body with
  | nil =>
    have hnone : (before ++ [] ++ after).dropWhile isBlank = [] := by
      rw [hfront, List.nil_append, List.dropWhile_eq_nil_iff]
      exact hafter
    rw [trim, hnone]
    rfl
  | cons c body =>
    have hstay : (c :: body ++ after).dropWhile isBlank = c :: body ++ after := by
      simp [hbody c List.mem_cons_self]
    rw [trim, hfront, hstay, hback, List.reverse_reverse]

end Text

end CborGraph
