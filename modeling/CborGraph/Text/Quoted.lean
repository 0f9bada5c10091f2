import CborGraph.Text.Assigned
import CborGraph.Text.Hidden
import CborGraph.Text.Marks

/-!
# Quoted text

A text between double quotes, in printable characters only. Quotes and backslashes get
a backslash, tab, carriage return, line feed and null have escapes of one letter, and
every other character that would not show by itself is written as `\u` with its code
point in braces.
-/

namespace CborGraph.Text

/-- The character shows by itself. -/
def isShown (c : Char) : Bool := isAssigned c && !isMark c && !isHidden c

/-- From the space to the tilde every character shows. -/
theorem isShown_of_ascii {c : Char} (h : 0x20 ≤ c.toNat) (h' : c.toNat ≤ 0x7E) :
    isShown c = true := by
  have assigned := isAssigned_of_lt (Nat.lt_of_le_of_lt h' (by decide : 0x7E < 0x378))
  have noMark := isMark_eq_false_of_lt (Nat.lt_of_le_of_lt h' (by decide : 0x7E < 0x300))
  simp [isShown, assigned, noMark, isHidden_eq_false_of_ascii h h']

/-- A code point in hexadecimal, with no leading zero. -/
def hexadecimal (n : Nat) : List Char := Nat.toDigits 16 n

/-- How a character stands inside quotes. -/
def escape (c : Char) : List Char :=
  match c with
  | '\t' => ['\\', 't']
  | '\r' => ['\\', 'r']
  | '\n' => ['\\', 'n']
  | '\x00' => ['\\', '0']
  | '"' => ['\\', '"']
  | '\\' => ['\\', '\\']
  | c => if isShown c then [c] else ['\\', 'u', '\x7b'] ++ hexadecimal c.toNat ++ ['\x7d']

/-- The text between double quotes. -/
def quote (s : String) : String := String.ofList ('"' :: s.toList.flatMap escape ++ ['"'])

end CborGraph.Text
