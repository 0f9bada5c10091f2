/-!
# Signed words

The integers that two's complement words of a given width hold.
-/

namespace CborGraph

-- Powers are those of the core library, also where others are in scope.
attribute [local instance (high)] instPowNat

/-- A two's complement word of `bits` bits holds `i`. -/
abbrev FitsSigned (bits : Nat) (i : Int) : Prop := -2 ^ (bits - 1) ≤ i ∧ i < 2 ^ (bits - 1)

end CborGraph
