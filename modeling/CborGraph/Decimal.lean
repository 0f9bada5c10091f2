import CborGraph.BigInt
import CborGraph.Text.Blank

/-!
# Decimal numbers

A finite decimal number is `mantissa * 10 ^ exponent`, with a mantissa of any size and
an exponent of 64 bits; trailing zeros of the mantissa are kept. The two infinities and
one NaN stand beside them.

A literal is trimmed of blanks and has one sign at most. Then it is `nan`, `inf` or
`infinity` in any case of letters, or digits with at most one point among them and
perhaps an exponent after `e` or `E`.
-/

namespace CborGraph

/-- A decimal number. -/
inductive Decimal
  | finite (mantissa : BigInt) (exponent : Int)
  | nan
  | infinity
  | negInfinity
deriving DecidableEq

namespace Decimal

/-- The number is NaN. -/
def isNaN : Decimal → Bool
  | nan => true
  | _ => false

/-- The number is one of the two infinities. -/
def isInfinite : Decimal → Bool
  | infinity | negInfinity => true
  | _ => false

/-- The number `mantissa * 10 ^ -scale`. -/
def ofScaled (mantissa : Int) (scale : Nat) : Decimal := finite (BigInt.ofInt mantissa) (-scale)

/-! ### Reading -/

/-- The number that is written in letters. -/
def ofName? (negative : Bool) (cs : List Char) : Option Decimal :=
  let name := String.ofList (cs.map Char.toLower)
  if name = "nan" then some nan
  else if name = "inf" ∨ name = "infinity" then some (if negative then negInfinity else infinity)
  else none

/-- What `e` or `E` marks as the exponent. -/
def isExponentMark (c : Char) : Bool := c == 'e' || c == 'E'

/-- The number that is written in digits. The exponent it ends up with, and the one
that is written, fit in 64 bits. -/
def ofDigits? (negative : Bool) (cs : List Char) : Option Decimal :=
  let (number, exponentText) := Literal.split isExponentMark cs
  let (whole, fractionText) := Literal.split (· == '.') number
  let fraction := fractionText.getD []
  match (match exponentText with
      | none => some 0
      | some text => Literal.int? text) with
  | none => none
  | some exponent =>
    if FitsSigned 64 exponent ∧ Literal.isNumeral (whole ++ fraction) ∧
        FitsSigned 64 (exponent - fraction.length) then
      some (finite (BigInt.ofDigits negative (whole ++ fraction)) (exponent - fraction.length))
    else none

/-- The number that a literal stands for. -/
def ofChars? (cs : List Char) : Option Decimal :=
  let (negative, body) := Literal.sign (Text.trim cs)
  ofName? negative body <|> ofDigits? negative body

/-- The number that a text stands for. -/
def parse (s : String) : Except LiteralError Decimal :=
  match ofChars? s.toList with
  | some d => .ok d
  | none => .error ⟨s⟩

end Decimal

end CborGraph
