import CborGraph.Signed

/-!
# Rational numbers

A fraction in lowest terms with a positive denominator, both parts in 128 bits. A
fraction is reduced first and must fit afterwards, so `-2^127` over itself is one, and
one over `-2^127` is nothing.
-/

namespace CborGraph

/-- A rational number in lowest terms. -/
structure Rational where
  /-- The numerator, with the sign of the number. -/
  numerator : Int
  /-- The denominator. -/
  denominator : Nat
  /-- The denominator is positive. -/
  denominator_pos : 0 < denominator
  /-- The fraction is in lowest terms. -/
  reduced : numerator.natAbs.gcd denominator = 1
deriving DecidableEq

namespace Rational

/-- The fraction `n / d` in lowest terms, if `d` is not zero and both parts fit in 128
bits. -/
def ofInts? (n d : Int) : Option Rational :=
  if hd : d = 0 then none
  else
    let g := n.natAbs.gcd d.natAbs
    let num : Int := if decide (n < 0) = decide (d < 0) then (n.natAbs / g : Nat) else -(n.natAbs / g : Nat)
    let den := d.natAbs / g
    if FitsSigned 128 num ∧ FitsSigned 128 den then
      some {
        numerator := num
        denominator := den
        denominator_pos := Nat.div_pos (Nat.gcd_le_right _ (by omega)) (Nat.gcd_pos_of_pos_right _ (by omega))
        reduced := by
          have h : num.natAbs = n.natAbs / g := by grind
          rw [h]
          exact Nat.gcd_div_gcd_div_gcd_of_pos_right (by omega) }
    else none

/-- The fraction as text, a stroke between its parts. -/
def text (r : Rational) : String := toString r.numerator ++ "/" ++ toString r.denominator

end Rational

end CborGraph
