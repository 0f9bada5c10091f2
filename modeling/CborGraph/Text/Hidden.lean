import CborGraph.Text.Ranges

/-!
# Hidden characters

Characters with nothing to show by themselves. `hiddenRanges` goes by the general
category: controls, format characters, blanks other than the space, separators and
private use. `ignorableRanges` is the property `Default_Ignorable_Code_Point`, which
some letters and code points to be assigned later have too.
-/

namespace CborGraph.Text

/-- The categories `Cc`, `Cf`, `Co`, `Zl`, `Zp` and `Zs`, without the space. -/
def hiddenRanges : Ranges := [
  (0x0, 0x1F), (0x7F, 0xA0), (0xAD, 0xAD), (0x600, 0x605), (0x61C, 0x61C), (0x6DD, 0x6DD),
  (0x70F, 0x70F), (0x890, 0x891), (0x8E2, 0x8E2), (0x1680, 0x1680), (0x180E, 0x180E),
  (0x2000, 0x200F), (0x2028, 0x202F), (0x205F, 0x2064), (0x2066, 0x206F), (0x3000, 0x3000),
  (0xE000, 0xF8FF), (0xFEFF, 0xFEFF), (0xFFF9, 0xFFFB), (0x110BD, 0x110BD), (0x110CD, 0x110CD),
  (0x13430, 0x1343F), (0x1BCA0, 0x1BCA3), (0x1D173, 0x1D17A), (0xE0001, 0xE0001),
  (0xE0020, 0xE007F), (0xF0000, 0xFFFFD), (0x100000, 0x10FFFD)]

/-- What is left out where it is not supported. -/
def ignorableRanges : Ranges := [
  (0xAD, 0xAD), (0x34F, 0x34F), (0x61C, 0x61C), (0x115F, 0x1160), (0x17B4, 0x17B5),
  (0x180B, 0x180F), (0x200B, 0x200F), (0x202A, 0x202E), (0x2060, 0x206F), (0x3164, 0x3164),
  (0xFE00, 0xFE0F), (0xFEFF, 0xFEFF), (0xFFA0, 0xFFA0), (0xFFF0, 0xFFF8), (0x1BCA0, 0x1BCA3),
  (0x1D173, 0x1D17A), (0xE0000, 0xE0FFF)]

/-- The character shows nothing by itself. -/
def isHidden (c : Char) : Bool := hiddenRanges.covers c || ignorableRanges.covers c

example : hiddenRanges.ascending = true ∧ ignorableRanges.ascending = true := by decide +kernel

/-- Nothing from the space to the tilde is hidden. -/
theorem isHidden_eq_false_of_ascii {c : Char} (h : 0x20 ≤ c.toNat) (h' : c.toNat ≤ 0x7E) :
    isHidden c = false := by
  have hidden : hiddenRanges.covers c = false := Ranges.covers_eq_false (by decide +kernel) h h'
  have ignorable : ignorableRanges.covers c = false :=
    Ranges.covers_eq_false (by decide +kernel) h h'
  simp [isHidden, hidden, ignorable]

/-- The filler that opens a Hangul syllable is a letter that is hidden, the letter that
opens one is not. -/
example : isHidden '\u115f' = true ∧ isHidden '\u1100' = false := by
  decide +kernel

end CborGraph.Text
