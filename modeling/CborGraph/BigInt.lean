import CborGraph.Bytes
import CborGraph.Literal
import CborGraph.Signed

/-!
# Integers of any size

An integer as a sign and a magnitude in big-endian bytes. The magnitude has no leading
zero byte and zero is not negative, so two integers are equal exactly when they are the
same number. `BigInt.argument` is the unsigned number that a data item carries for an
integer: the integer itself, or `-1 - i` for a negative `i`.
-/

namespace CborGraph

/-- An integer of any size. -/
structure BigInt where
  /-- Whether the integer is below zero. -/
  negative : Bool
  /-- The absolute value. -/
  magnitude : Bytes
  /-- The magnitude has no leading zero. -/
  minimal : magnitude.head? ≠ some 0
  /-- Zero is not negative. -/
  signed : negative = true → magnitude ≠ []
deriving DecidableEq

namespace BigInt

/-- The integer with this sign and this magnitude, which may have leading zeros. -/
def ofBytes (negative : Bool) (magnitude : Bytes) : BigInt where
  negative := negative && !(Bytes.stripZeros magnitude).isEmpty
  magnitude := Bytes.stripZeros magnitude
  minimal := Bytes.head?_stripZeros magnitude
  signed h := by simp at h; exact h.2

/-- The integer `i` in bytes. -/
def ofInt (i : Int) : BigInt := ofBytes (i < 0) (Bytes.ofNat i.natAbs)

/-- The number that the integer is. -/
def toInt (n : BigInt) : Int :=
  if n.negative then -(Bytes.toNat n.magnitude : Int) else Bytes.toNat n.magnitude

/-- The integer is zero. -/
def isZero (n : BigInt) : Bool := n.magnitude.isEmpty

/-- The number that the integer is, if 128 bits hold it. More than sixteen bytes are too
many whatever they are. -/
def toInt128? (n : BigInt) : Option Int :=
  if n.magnitude.length ≤ 16 ∧ FitsSigned 128 n.toInt then some n.toInt else none

/-- The unsigned number a data item carries for the integer, with no leading zero: the
magnitude, or one less if the integer is negative. -/
def argument (n : BigInt) : Bytes :=
  if n.negative then Bytes.stripZeros (Bytes.decrement n.magnitude).2 else n.magnitude

/-! ### Reading -/

/-- The integer with this sign and these ASCII digits. -/
def ofDigits (negative : Bool) (digits : List Char) : BigInt :=
  ofBytes negative (digits.foldl (fun m c => Bytes.mulAdd 10 (UInt8.ofNat (Literal.digit c)) m) [])

/-- The integer that a literal stands for: one sign at most, then ASCII digits. -/
def ofChars? (cs : List Char) : Option BigInt :=
  let (negative, digits) := Literal.sign cs
  if Literal.isNumeral digits then some (ofDigits negative digits) else none

/-- The integer that a text stands for. -/
def parse (s : String) : Except LiteralError BigInt :=
  match ofChars? s.toList with
  | some n => .ok n
  | none => .error ⟨s⟩

end BigInt

end CborGraph
