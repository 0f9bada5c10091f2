import CborGraph.Proofs.CanonicalInteger
import Mathlib.Data.List.Basic
import Mathlib.Tactic.FieldSimp

/-!
# The literals of decimal numbers

The parser cuts a text in several places, one after the other: the blanks at the ends, the sign, the
first `e` or `E`, the first point. Here the language is stated the other way round, by how its literals
are put together. `Literal.Scientific` are those in digits, each with the number that it denotes, and
`Decimal.Spells` says that a text is a name. The parser accepts these and nothing else, and reads each as
what it denotes.

No character of a literal is a blank, so there is one way only to trim it; a name has letters alone, so
no literal in digits is taken for one.

Main statement: `Decimal.parse_exact`.
-/

namespace CborGraph

/-! ### Letters and digits -/

namespace Text

/-- The letters of ASCII. -/
theorem isAlpha_iff {c : Char} : c.isAlpha = true ↔
    (65 ≤ c.toNat ∧ c.toNat ≤ 90) ∨ (97 ≤ c.toNat ∧ c.toNat ≤ 122) := by
  change (decide (65 ≤ c.val ∧ c.val ≤ 90) || (decide (97 ≤ c.val) && decide (c.val ≤ 122))) = true ↔ _
  simp only [Bool.or_eq_true, Bool.and_eq_true, decide_eq_true_eq, UInt32.le_iff_toNat_le,
    UInt32.reduceToNat, Char.toNat_val]

/-- The digits of ASCII. -/
theorem isDigit_iff {c : Char} : c.isDigit = true ↔ 48 ≤ c.toNat ∧ c.toNat ≤ 57 := by
  simp only [Char.isDigit, Bool.and_eq_true, decide_eq_true_eq, ge_iff_le, UInt32.le_iff_toNat_le,
    Char.reduceVal, UInt32.reduceToNat, Char.toNat_val]

/-- Neither letters nor digits of ASCII are blank. -/
theorem isBlank_of_isAlphanum {c : Char} (h : c.isAlphanum = true) : isBlank c = false := by
  simp only [Char.isAlphanum, Bool.or_eq_true, isAlpha_iff, isDigit_iff] at h
  simp only [isBlank, Bool.or_eq_false_iff, Bool.and_eq_false_iff, decide_eq_false_iff_not,
    beq_eq_false_iff_ne]
  omega

theorem isAlpha_of_isDigit {c : Char} (h : c.isDigit = true) : c.isAlpha = false := by
  rw [isDigit_iff] at h
  rw [Bool.eq_false_iff, Ne, isAlpha_iff]
  omega

/-- What is a small letter in lower case is a letter. -/
theorem isAlpha_of_isLower_toLower {c : Char} (h : c.toLower.isLower = true) : c.isAlpha = true := by
  by_cases hupper : 65 ≤ c.val ∧ c.val ≤ 90
  · rw [UInt32.le_iff_toNat_le, UInt32.le_iff_toNat_le] at hupper
    exact isAlpha_iff.mpr (.inl hupper)
  · have hsame : c.toLower = c := dif_neg hupper
    rw [hsame] at h
    change (c.isUpper || c.isLower) = true
    rw [h, Bool.or_true]

end Text

namespace Literal

theorem Sign.isBlank_text (s : Sign) : ∀ c ∈ s.text, Text.isBlank c = false := by
  intro c hc
  cases s with
  | absent => cases hc
  | plus =>
    obtain rfl := List.mem_singleton.mp hc
    rfl
  | minus =>
    obtain rfl := List.mem_singleton.mp hc
    rfl

/-! ### Literals in digits -/

/-- A literal in digits, with at most one point among them and perhaps an exponent. -/
structure Scientific where
  /-- The sign. -/
  sign : Sign
  /-- The digits before the point, or all digits. -/
  whole : List Char
  /-- The digits after the point, if there is one. -/
  fraction : Option (List Char)
  /-- What marks the exponent, and the exponent, if there is one. -/
  exponent : Option (Char × Integer)
  /-- There is one digit at least, on either side of the point. -/
  ne_nil : whole ++ fraction.getD [] ≠ []
  /-- The digits are those of ASCII. -/
  isDigit : ∀ c ∈ whole ++ fraction.getD [], c.isDigit = true
  /-- The exponent is marked by an `e` in either case. -/
  isMark : ∀ x ∈ exponent, x.1 = 'e' ∨ x.1 = 'E'

namespace Scientific

/-- How a fraction is written after the digits before it. -/
def fractionText : Option (List Char) → List Char
  | none => []
  | some digits => '.' :: digits

/-- How an exponent is written after the digits. -/
def exponentText : Option (Char × Integer) → List Char
  | none => []
  | some (mark, x) => mark :: x.text

/-- The digits and the point. -/
def number (l : Scientific) : List Char := l.whole ++ fractionText l.fraction

/-- What follows the sign. -/
def body (l : Scientific) : List Char := l.number ++ exponentText l.exponent

/-- The literal as it is written. -/
def text (l : Scientific) : List Char := l.sign.text ++ l.body

/-- All digits, without the point. -/
def digits (l : Scientific) : List Char := l.whole ++ l.fraction.getD []

/-- How many digits are after the point. -/
def scale (l : Scientific) : Nat := (l.fraction.getD []).length

/-- The exponent that is written, zero if there is none. -/
def power (l : Scientific) : Int :=
  match l.exponent with
  | none => 0
  | some (_, x) => x.value

/-- The integer in the digits, as if there were no point. -/
def mantissa (l : Scientific) : Int := l.sign.apply (numeral l.digits)

/-- The number that the literal denotes. -/
def value (l : Scientific) : ℚ :=
  (if l.sign.isNegative then -1 else 1) *
    (numeral l.whole + numeral (l.fraction.getD []) / 10 ^ l.scale) * 10 ^ l.power

/-- **The digits without their point, with a lesser power**, are the same number. -/
theorem mantissa_mul (l : Scientific) : (l.mantissa : ℚ) * 10 ^ (l.power - l.scale) = l.value := by
  have hten : (10 : ℚ) ≠ 0 := by norm_num
  have hdigits : (numeral l.digits : ℚ) =
      numeral l.whole * 10 ^ l.scale + numeral (l.fraction.getD []) := by
    rw [digits, numeral_append, scale]
    push_cast
    rfl
  have hmantissa : (l.mantissa : ℚ) =
      (if l.sign.isNegative then -1 else 1) * (numeral l.digits : ℚ) := by
    rw [mantissa, Sign.apply]
    split <;> push_cast <;> ring
  rw [hmantissa, hdigits, zpow_sub₀ hten, zpow_natCast, value]
  field_simp

/-! ### Taking a literal apart -/

theorem eq_of_split_point {number whole : List Char} {fraction : Option (List Char)}
    (h : split (· == '.') number = (whole, fraction)) : number = whole ++ fractionText fraction := by
  cases fraction with
  | none => rw [fractionText, List.append_nil, (eq_of_split_none h).1]
  | some digits =>
    obtain ⟨c, hc, hnumber, -⟩ := eq_of_split_some h
    rw [hnumber, fractionText, beq_iff_eq.mp hc]

variable (l : Scientific)

theorem isDigit_whole : ∀ c ∈ l.whole, c.isDigit = true :=
  fun c hc => l.isDigit c (List.mem_append_left _ hc)

theorem isNumeral_digits : isNumeral l.digits = true := isNumeral_iff.mpr ⟨l.ne_nil, l.isDigit⟩

/-- Before the exponent there are digits and the point. -/
theorem isDigit_or_point : ∀ c ∈ l.number, c.isDigit = true ∨ c = '.' := by
  intro c hc
  obtain hwhole | hfraction := List.mem_append.mp hc
  · exact .inl (l.isDigit_whole c hwhole)
  · cases hf : l.fraction with
    | none => simp [hf, fractionText] at hfraction
    | some digits =>
      rw [hf, fractionText, List.mem_cons] at hfraction
      obtain rfl | hdigit := hfraction
      · exact .inr rfl
      · exact .inl (l.isDigit c (List.mem_append_right _ (by rwa [hf, Option.getD_some])))

theorem split_number : split (· == '.') l.number = (l.whole, l.fraction) := by
  have hwhole : ∀ c ∈ l.whole, (c == '.') = false := fun c hc =>
    beq_eq_false_iff_ne.mpr (ne_of_isDigit (l.isDigit_whole c hc) rfl)
  rw [number]
  cases l.fraction with
  | none =>
    rw [fractionText, List.append_nil]
    exact split_of_forall hwhole
  | some digits => exact split_append hwhole rfl

theorem split_body : split Decimal.isExponentMark l.body = (l.number, l.exponent.map (·.2.text)) := by
  have hnumber : ∀ c ∈ l.number, Decimal.isExponentMark c = false := by
    intro c hc
    obtain hdigit | rfl := l.isDigit_or_point c hc
    · have hsmall : c ≠ 'e' := ne_of_isDigit hdigit rfl
      have hcapital : c ≠ 'E' := ne_of_isDigit hdigit rfl
      simp [Decimal.isExponentMark, hsmall, hcapital]
    · rfl
  cases hexponent : l.exponent with
  | none =>
    rw [body, hexponent, exponentText, List.append_nil]
    exact split_of_forall hnumber
  | some x =>
    have hmark : Decimal.isExponentMark x.1 = true := by
      simpa [Decimal.isExponentMark] using l.isMark x (by rw [hexponent, Option.mem_some])
    rw [body, hexponent]
    exact split_append hnumber hmark

theorem number_ne_nil : l.number ≠ [] := by
  intro h
  obtain ⟨hwhole, hfraction⟩ := List.append_eq_nil_iff.mp h
  cases hf : l.fraction with
  | none => exact l.ne_nil (by simp [hwhole, hf])
  | some digits => simp [hf, fractionText] at hfraction

/-- No sign follows the sign. -/
theorem head?_body : ∀ c ∈ l.body.head?, c ≠ '-' ∧ c ≠ '+' := by
  intro c hc
  have hmem : c ∈ l.number := by
    rw [body, List.head?_append_of_ne_nil _ l.number_ne_nil] at hc
    exact List.mem_of_mem_head? hc
  obtain hdigit | rfl := l.isDigit_or_point c hmem
  · exact ⟨ne_of_isDigit hdigit rfl, ne_of_isDigit hdigit rfl⟩
  · decide

/-- There is no blank in a literal. -/
theorem isBlank_body : ∀ c ∈ l.body, Text.isBlank c = false := by
  have hdigit : ∀ {c : Char}, c.isDigit = true → Text.isBlank c = false := fun h =>
    Text.isBlank_of_isAlphanum (by simp [Char.isAlphanum, h])
  intro c hc
  obtain hnumber | hexponent := List.mem_append.mp hc
  · obtain h | rfl := l.isDigit_or_point c hnumber
    · exact hdigit h
    · decide
  · cases hx : l.exponent with
    | none => simp [hx, exponentText] at hexponent
    | some x =>
      rw [hx, exponentText, List.mem_cons, Integer.text, List.mem_append] at hexponent
      obtain rfl | hsign | h := hexponent
      · obtain h | h := l.isMark x (by rw [hx, Option.mem_some]) <;> rw [h] <;> decide
      · exact Sign.isBlank_text x.2.sign c hsign
      · exact hdigit (x.2.isDigit c h)

end Scientific

end Literal

namespace Decimal

open Literal (Sign Scientific)

/-! ### Digits -/

/-- What is read from a literal in digits, if its exponents have room. -/
theorem ofDigits?_body (l : Scientific) (negative : Bool) :
    ofDigits? negative l.body =
      if FitsSigned 64 l.power ∧ FitsSigned 64 (l.power - l.scale) then
        some (finite (BigInt.ofDigits negative l.digits) (l.power - l.scale))
      else none := by
  have hnumeral : Literal.isNumeral (l.whole ++ l.fraction.getD []) = true := l.isNumeral_digits
  cases hx : l.exponent with
  | none =>
    simp only [ofDigits?, l.split_body, l.split_number, hx, Option.map_none, hnumeral, true_and,
      Scientific.power]
    rfl
  | some x =>
    have hread : Literal.int? x.2.text = some x.2.value := Literal.int?_eq_some_iff.mpr ⟨x.2, rfl, rfl⟩
    simp only [ofDigits?, l.split_body, l.split_number, hx, Option.map_some, hread, hnumeral, true_and,
      Scientific.power]
    rfl

theorem toInt_ofDigits_mantissa (l : Scientific) :
    (BigInt.ofDigits l.sign.isNegative l.digits).toInt = l.mantissa :=
  BigInt.toInt_ofDigits_sign l.sign l.isDigit

/-- **Nothing else is read from digits**, whatever sign stands before. -/
theorem exists_body_of_ofDigits? {negative : Bool} {cs : List Char} {d : Decimal}
    (h : ofDigits? negative cs = some d) (s : Sign) : ∃ l : Scientific, l.sign = s ∧ l.body = cs := by
  rcases hbody : Literal.split isExponentMark cs with ⟨number, text?⟩
  rcases hnumber : Literal.split (· == '.') number with ⟨whole, fraction⟩
  -- What was cut is put together again, first at the point and then at the mark.
  have hcut := Scientific.eq_of_split_point hnumber
  simp only [ofDigits?, hbody, hnumber] at h
  split at h
  · cases h
  · next exponent hexponent =>
    split at h
    · next hif =>
      obtain ⟨hne, hdigit⟩ := Literal.isNumeral_iff.mp hif.2.1
      cases text? with
      | none =>
        refine ⟨⟨s, whole, fraction, none, hne, hdigit, by simp⟩, rfl, ?_⟩
        rw [(Literal.eq_of_split_none hbody).1, hcut]
        exact List.append_nil _
      | some text =>
        obtain ⟨mark, hmark, hcs, -⟩ := Literal.eq_of_split_some hbody
        obtain ⟨x, rfl, -⟩ := Literal.int?_eq_some_iff.mp hexponent
        refine ⟨⟨s, whole, fraction, some (mark, x), hne, hdigit, ?_⟩, rfl, ?_⟩
        · simpa [isExponentMark] using hmark
        · rw [hcs, hcut]
          rfl
    · cases h

/-- Digits stand for a finite number. -/
theorem eq_finite_of_ofDigits? {negative : Bool} {cs : List Char} {d : Decimal}
    (h : ofDigits? negative cs = some d) : ∃ m e, d = finite m e := by
  obtain ⟨l, -, rfl⟩ := exists_body_of_ofDigits? h .absent
  rw [ofDigits?_body] at h
  split at h
  · exact ⟨_, _, (Option.some_inj.mp h).symm⟩
  · cases h

/-! ### Letters -/

/-- The letters, with capitals made small. -/
def lower (cs : List Char) : String := String.ofList (cs.map Char.toLower)

theorem ofName?_eq_some_iff {negative : Bool} {cs : List Char} {d : Decimal} :
    ofName? negative cs = some d ↔
      lower cs = "nan" ∧ d = nan ∨
        (lower cs = "inf" ∨ lower cs = "infinity") ∧ d = if negative then negInfinity else infinity := by
  have hdef : ofName? negative cs = if lower cs = "nan" then some nan
      else if lower cs = "inf" ∨ lower cs = "infinity" then
        some (if negative then negInfinity else infinity)
      else none := rfl
  rw [hdef]
  by_cases hnan : lower cs = "nan"
  · have hinf : "nan" ≠ "inf" ∧ "nan" ≠ "infinity" := by decide
    rw [if_pos hnan, Option.some_inj, eq_comm (b := d), hnan]
    simp only [hinf, true_and, or_self, false_and, or_false]
  · by_cases hinf : lower cs = "inf" ∨ lower cs = "infinity"
    · rw [if_neg hnan, if_pos hinf, Option.some_inj, eq_comm (b := d)]
      simp only [hnan, hinf, true_and, false_and, false_or]
    · rw [if_neg hnan, if_neg hinf]
      simp only [hnan, hinf, reduceCtorEq, false_and, or_self]

/-- A name has letters alone. -/
theorem isAlpha_of_ofName? {negative : Bool} {cs : List Char} {d : Decimal}
    (h : ofName? negative cs = some d) : ∀ c ∈ cs, c.isAlpha = true := by
  have hlower : ∀ name : List Char, lower cs = String.ofList name →
      (∀ c ∈ name, c.isLower = true) → ∀ c ∈ cs, c.isAlpha = true := by
    intro name hcs hname c hc
    apply Text.isAlpha_of_isLower_toLower
    apply hname
    rw [← String.ofList_inj.mp hcs]
    exact List.mem_map_of_mem hc
  obtain ⟨hnan, -⟩ | ⟨hinf | hinfinity, -⟩ := ofName?_eq_some_iff.mp h
  · exact hlower ['n', 'a', 'n'] hnan (by simp)
  · exact hlower ['i', 'n', 'f'] hinf (by simp)
  · exact hlower ['i', 'n', 'f', 'i', 'n', 'i', 't', 'y'] hinfinity (by simp)

/-- No literal in digits is a name. -/
theorem ofName?_body (negative : Bool) (l : Scientific) : ofName? negative l.body = none := by
  rw [Option.eq_none_iff_forall_ne_some]
  intro d h
  have hnumber : ∃ c ∈ l.number, c.isAlpha = false := by
    obtain ⟨c, hc⟩ := List.exists_mem_of_ne_nil _ l.number_ne_nil
    obtain hdigit | rfl := l.isDigit_or_point c hc
    · exact ⟨c, hc, Text.isAlpha_of_isDigit hdigit⟩
    · exact ⟨'.', hc, rfl⟩
  obtain ⟨c, hc, hnot⟩ := hnumber
  rw [isAlpha_of_ofName? h c (List.mem_append_left _ hc)] at hnot
  cases hnot

/-! ### The parser -/

theorem ofChars?_of_trims {cs body : List Char} {s : Sign} (h : Text.Trims cs (s.text ++ body))
    (hblank : ∀ c ∈ body, Text.isBlank c = false) (hsign : ∀ c ∈ body.head?, c ≠ '-' ∧ c ≠ '+') :
    ofChars? cs = (ofName? s.isNegative body <|> ofDigits? s.isNegative body) := by
  have htext : ∀ c ∈ s.text ++ body, Text.isBlank c = false := fun c hc =>
    (List.mem_append.mp hc).elim (Sign.isBlank_text s c) (hblank c)
  rw [ofChars?, Text.trim_of_trims h htext, Literal.sign_text_append s hsign]

theorem exists_trims (cs : List Char) : ∃ (s : Sign) (body : List Char),
    Text.Trims cs (s.text ++ body) ∧
      ofChars? cs = (ofName? s.isNegative body <|> ofDigits? s.isNegative body) := by
  obtain ⟨s, htext, hs⟩ := Literal.exists_sign (Text.trim cs)
  refine ⟨s, _, htext ▸ Text.trims_trim cs, ?_⟩
  rw [ofChars?, hs]

/-- What is read from a text that holds a literal in digits. -/
theorem ofChars?_of_trims_text {cs : List Char} {l : Scientific} (h : Text.Trims cs l.text) :
    ofChars? cs =
      if FitsSigned 64 l.power ∧ FitsSigned 64 (l.power - l.scale) then
        some (finite (BigInt.ofDigits l.sign.isNegative l.digits) (l.power - l.scale))
      else none := by
  rw [ofChars?_of_trims h l.isBlank_body l.head?_body, ofName?_body, ofDigits?_body]
  rfl

/-- **The finite numbers** are read from the literals in digits whose exponents have room. -/
theorem ofChars?_eq_finite_iff {cs : List Char} {m : BigInt} {e : Int} :
    ofChars? cs = some (finite m e) ↔ ∃ l : Scientific, Text.Trims cs l.text ∧
      FitsSigned 64 l.power ∧ FitsSigned 64 (l.power - l.scale) ∧
      m.toInt = l.mantissa ∧ e = l.power - l.scale := by
  constructor
  · intro h
    obtain ⟨s, body, htrims, hread⟩ := exists_trims cs
    rw [hread] at h
    -- No name is finite, so the number was read from digits.
    cases hname : ofName? s.isNegative body with
    | some d =>
      rw [hname] at h
      obtain rfl : d = finite m e := Option.some_inj.mp h
      obtain ⟨-, hd⟩ | ⟨-, hd⟩ := ofName?_eq_some_iff.mp hname
      · cases hd
      · split at hd <;> cases hd
    | none =>
      rw [hname] at h
      obtain ⟨l, rfl, rfl⟩ := exists_body_of_ofDigits? h s
      have hfinite : ofDigits? l.sign.isNegative l.body = some (finite m e) := h
      rw [ofDigits?_body] at hfinite
      split at hfinite
      · next hfits =>
        obtain ⟨rfl, rfl⟩ := finite.injEq .. ▸ Option.some_inj.mp hfinite
        exact ⟨l, htrims, hfits.1, hfits.2, toInt_ofDigits_mantissa l, rfl⟩
      · cases hfinite
  · rintro ⟨l, htrims, hpower, hexponent, hm, rfl⟩
    rw [ofChars?_of_trims_text htrims, if_pos ⟨hpower, hexponent⟩]
    congr 2
    apply BigInt.toInt_injective
    rw [toInt_ofDigits_mantissa, hm]

/-- The others are read from names. -/
theorem ofChars?_eq_name_iff {cs : List Char} {d : Decimal} (hd : ∀ m e, d ≠ finite m e) :
    ofChars? cs = some d ↔ ∃ (s : Sign) (body : List Char), Text.Trims cs (s.text ++ body) ∧
      ofName? s.isNegative body = some d := by
  constructor
  · intro h
    obtain ⟨s, body, htrims, hread⟩ := exists_trims cs
    refine ⟨s, body, htrims, ?_⟩
    rw [hread] at h
    cases hname : ofName? s.isNegative body with
    | some d' =>
      rw [hname] at h
      exact h
    | none =>
      rw [hname] at h
      obtain ⟨m, e, rfl⟩ := eq_finite_of_ofDigits? h
      exact absurd rfl (hd m e)
  · rintro ⟨s, body, htrims, hname⟩
    have hletter := isAlpha_of_ofName? hname
    have hblank : ∀ c ∈ body, Text.isBlank c = false := fun c hc =>
      Text.isBlank_of_isAlphanum (by simp [Char.isAlphanum, hletter c hc])
    have hsign : ∀ c ∈ body.head?, c ≠ '-' ∧ c ≠ '+' := by
      intro c hc
      have hc := hletter c (List.mem_of_mem_head? hc)
      constructor <;> rintro rfl <;> cases hc
    rw [ofChars?_of_trims htrims hblank hsign, hname]
    rfl

/-- The text is this name after this sign, in any case of letters and between blanks. -/
def Spells (cs : List Char) (s : Sign) (name : String) : Prop :=
  ∃ letters : List Char, Text.Trims cs (s.text ++ letters) ∧ lower letters = name

/-- Which name is read as what. -/
theorem ofChars?_eq_some_iff_spells {cs : List Char} {d : Decimal} (hd : ∀ m e, d ≠ finite m e) :
    ofChars? cs = some d ↔ ∃ s, Spells cs s "nan" ∧ d = nan ∨
      (Spells cs s "inf" ∨ Spells cs s "infinity") ∧ d = if s.isNegative then negInfinity else infinity := by
  rw [ofChars?_eq_name_iff hd]
  apply exists_congr
  intro s
  simp only [ofName?_eq_some_iff, Spells]
  constructor
  · rintro ⟨letters, htrims, ⟨hname, rfl⟩ | ⟨hname | hname, hsigned⟩⟩
    · exact .inl ⟨⟨letters, htrims, hname⟩, rfl⟩
    · exact .inr ⟨.inl ⟨letters, htrims, hname⟩, hsigned⟩
    · exact .inr ⟨.inr ⟨letters, htrims, hname⟩, hsigned⟩
  · rintro (⟨⟨letters, htrims, hname⟩, rfl⟩ | ⟨⟨letters, htrims, hname⟩ | ⟨letters, htrims, hname⟩, hsigned⟩)
    · exact ⟨letters, htrims, .inl ⟨hname, rfl⟩⟩
    · exact ⟨letters, htrims, .inr ⟨.inl hname, hsigned⟩⟩
    · exact ⟨letters, htrims, .inr ⟨.inr hname, hsigned⟩⟩

/-! ### The theorem -/

theorem parse_eq_ok_iff {s : String} {d : Decimal} : parse s = .ok d ↔ ofChars? s.toList = some d := by
  rw [parse]
  cases ofChars? s.toList <;> simp

/-- A text that is not read is quoted by the error, with the blanks at its ends. -/
theorem parse_total (s : String) : (∃ d, parse s = .ok d) ∨ parse s = .error ⟨s⟩ := by
  rw [parse]
  cases ofChars? s.toList with
  | some d => exact .inl ⟨d, rfl⟩
  | none => exact .inr rfl

/-- **The parser accepts its language and is exact.** Every text is a name after a sign, or a literal in
digits whose exponent fits in 64 bits both as it is written and with the digits after the point taken
off, or else it is refused. -/
theorem parse_exact (s : String) :
    (parse s = .ok nan ↔ ∃ sign, Spells s.toList sign "nan") ∧
      (parse s = .ok infinity ↔ ∃ sign : Sign, sign.isNegative = false ∧
        (Spells s.toList sign "inf" ∨ Spells s.toList sign "infinity")) ∧
      (parse s = .ok negInfinity ↔ ∃ sign : Sign, sign.isNegative = true ∧
        (Spells s.toList sign "inf" ∨ Spells s.toList sign "infinity")) ∧
      (∀ m e, parse s = .ok (finite m e) ↔ ∃ l : Scientific, Text.Trims s.toList l.text ∧
        FitsSigned 64 l.power ∧ FitsSigned 64 (l.power - l.scale) ∧
        m.toInt = l.mantissa ∧ e = l.power - l.scale) ∧
      (∀ m e (l : Scientific), parse s = .ok (finite m e) → Text.Trims s.toList l.text →
        (m.toInt : ℚ) * 10 ^ e = l.value) ∧
      ((∃ d, parse s = .ok d) ∨ parse s = .error ⟨s⟩) := by
  refine ⟨?_, ?_, ?_, fun m e => ?_, fun m e l h htrims => ?_, parse_total s⟩
  · rw [parse_eq_ok_iff, ofChars?_eq_some_iff_spells (by simp)]
    apply exists_congr
    intro sign
    cases sign.isNegative <;> simp
  · rw [parse_eq_ok_iff, ofChars?_eq_some_iff_spells (by simp)]
    apply exists_congr
    intro sign
    cases sign.isNegative <;> simp
  · rw [parse_eq_ok_iff, ofChars?_eq_some_iff_spells (by simp)]
    apply exists_congr
    intro sign
    cases sign.isNegative <;> simp
  · rw [parse_eq_ok_iff, ofChars?_eq_finite_iff]
  · rw [parse_eq_ok_iff, ofChars?_of_trims_text htrims] at h
    split at h
    · obtain ⟨rfl, rfl⟩ := finite.injEq .. ▸ Option.some_inj.mp h
      rw [toInt_ofDigits_mantissa]
      exact l.mantissa_mul
    · cases h

/-- Blanks at the ends, a sign, a point and an exponent. -/
theorem parse_exact_with_exponent :
    ∃ l : Scientific, l.text = "-12.50E-3".toList ∧
      parse "\t-12.50E-3 " = .ok (finite (BigInt.ofInt (-1250)) (-5)) ∧
      ((BigInt.ofInt (-1250)).toInt : ℚ) * 10 ^ (-5 : Int) = l.value := by
  obtain ⟨-, -, -, hfinite, hvalue, -⟩ := parse_exact "\t-12.50E-3 "
  have hread : ∃ l : Scientific, l.text = "-12.50E-3".toList ∧
      l.power = -3 ∧ l.scale = 2 ∧ l.mantissa = -1250 :=
    ⟨⟨.minus, ['1', '2'], some ['5', '0'], some ('E', ⟨.minus, ['3'], by simp, by simp⟩), by simp,
      by simp, by simp⟩, by decide, by decide, by decide, by decide⟩
  obtain ⟨l, htext, hpower, hscale, hmantissa⟩ := hread
  have htrims : Text.Trims "\t-12.50E-3 ".toList l.text :=
    ⟨['\t'], [' '], by rw [htext]; decide, by simp [Text.isBlank], by simp [Text.isBlank]⟩
  have hparse : parse "\t-12.50E-3 " = .ok (finite (BigInt.ofInt (-1250)) (-5)) := by
    refine (hfinite _ _).mpr ⟨l, htrims, ?_, ?_, ?_, ?_⟩
    · rw [hpower]
      decide
    · rw [hpower, hscale]
      decide
    · rw [hmantissa, BigInt.toInt_ofInt]
    · rw [hpower, hscale]
      rfl
  exact ⟨l, htext, hparse, hvalue _ _ l hparse htrims⟩

-- The least exponent that is written leaves no room for a digit after the point.
example : parse "1.0e-9223372036854775808" = .error ⟨"1.0e-9223372036854775808"⟩ := by decide

end Decimal

end CborGraph
