/-!
# Padded numerals

Decimal numerals with zeros before them, up to a width.
-/

namespace CborGraph.Text

/-- The decimal numeral of `n`, with zeros before it if it is shorter than `width`. -/
def padded (width n : Nat) : List Char :=
  let digits := Nat.toDigits 10 n
  List.replicate (width - digits.length) '0' ++ digits

end CborGraph.Text
