import CborGraph.Head

/-!
# Double-precision numbers

A double as its 64 bits, with exact arithmetic on what the bits stand for. A finite
number of a binary format is a whole number of units, the unit being its least positive
number, and the pattern of `k` units is found by one division: with
`j = log2 k - fractionBits`, the pattern is `k / 2^j + j * 2^fractionBits`. The same
formula with a rounded division gives the pattern nearest to a number that is not a
whole number of units, a half going to the even pattern.

`Binary64.item` is the data item of a double: NaN and the infinities as halves, any
other number as a double or, if asked, as the shortest format that holds it exactly.
-/

namespace CborGraph

-- Powers are those of the core library, also where others are in scope.
attribute [local instance (high)] instPowNat

/-- A binary format: a sign bit, a biased exponent and a fraction. -/
structure Format where
  /-- The width of the exponent. -/
  exponentBits : Nat
  /-- The width of the fraction. -/
  fractionBits : Nat

namespace Format

/-- Two bytes. -/
def half : Format := ⟨5, 10⟩

/-- Four bytes. -/
def single : Format := ⟨8, 23⟩

/-- Eight bytes. -/
def double : Format := ⟨11, 52⟩

/-- The sign bit by itself. -/
def signBit (f : Format) : Nat := 2 ^ (f.exponentBits + f.fractionBits)

/-- The pattern of infinity. -/
def infinity (f : Format) : Nat := (2 ^ f.exponentBits - 1) * 2 ^ f.fractionBits

/-- The pattern without its sign. -/
def magnitude (f : Format) (bits : Nat) : Nat := bits % f.signBit

/-- The sign bit of a pattern, or zero. -/
def sign (f : Format) (bits : Nat) : Nat := bits / f.signBit % 2 * f.signBit

/-- The unit is `2 ^ -unitExponent`. -/
def unitExponent (f : Format) : Nat := 2 ^ (f.exponentBits - 1) - 2 + f.fractionBits

/-- How many units a finite pattern stands for, its sign aside: the fraction alone if
the exponent is zero, and otherwise one and the fraction, shifted by the exponent less
one. -/
def units (f : Format) (bits : Nat) : Nat :=
  let exponent := f.magnitude bits / 2 ^ f.fractionBits
  let fraction := bits % 2 ^ f.fractionBits
  if exponent = 0 then fraction else (2 ^ f.fractionBits + fraction) * 2 ^ (exponent - 1)

/-- How far `k` units reach beyond the fraction. -/
def excess (f : Format) (k : Nat) : Nat := k.log2 - f.fractionBits

/-- The pattern of `k` units, with what the fraction cannot hold cut off. -/
def ofUnits (f : Format) (k : Nat) : Nat :=
  k / 2 ^ f.excess k + f.excess k * 2 ^ f.fractionBits

/-- The pattern of `k` units, if the format has one. -/
def ofUnits? (f : Format) (k : Nat) : Option Nat :=
  if k % 2 ^ f.excess k = 0 ∧ f.ofUnits k < f.infinity then some (f.ofUnits k) else none

/-- `n / d` rounded to the nearest whole number, a half to the even one. -/
def roundDiv (n d : Nat) : Nat :=
  let q := n / d
  let r := n % d
  if 2 * r < d then q else if d < 2 * r then q + 1 else q + q % 2

/-- The pattern nearest to `n / d` units; infinity if no finite pattern is. -/
def roundUnits (f : Format) (n d : Nat) : Nat :=
  let j := f.excess (n / d)
  min (roundDiv n (d * 2 ^ j) + j * 2 ^ f.fractionBits) f.infinity

/-! ### Between a format and the double -/

/-- The unit of `f` is so many units of the double. -/
def unitsOfDouble (f : Format) : Nat := 2 ^ (double.unitExponent - f.unitExponent)

/-- The double with the value of a pattern of `f`; a NaN keeps its fraction. -/
def widen (f : Format) (bits : Nat) : Nat :=
  f.sign bits / f.signBit * double.signBit +
    if f.magnitude bits < f.infinity then double.ofUnits (f.units bits * f.unitsOfDouble)
    else double.infinity +
      (f.magnitude bits - f.infinity) * 2 ^ (double.fractionBits - f.fractionBits)

/-- The pattern of `f` with the value of a finite double, if there is one. -/
def narrow? (f : Format) (bits : Nat) : Option Nat :=
  let k := double.units bits
  if k % f.unitsOfDouble = 0 then
    (f.ofUnits? (k / f.unitsOfDouble)).map (double.sign bits / double.signBit * f.signBit + ·)
  else none

end Format

/-- A double, as its bits. -/
structure Binary64 where
  /-- Sign, exponent and fraction. -/
  bits : UInt64
deriving DecidableEq

namespace Binary64

open Format

/-- The double with the value of a single. -/
def ofSingle (bits : UInt32) : Binary64 := ⟨UInt64.ofNat (single.widen bits.toNat)⟩

/-- The double is not a number. -/
def isNaN (x : Binary64) : Bool := double.infinity < double.magnitude x.bits.toNat

/-- The double is one of the two infinities. -/
def isInfinite (x : Binary64) : Bool := double.magnitude x.bits.toNat = double.infinity

/-- The sign bit is set. -/
def isNegative (x : Binary64) : Bool := double.sign x.bits.toNat ≠ 0

/-! ### Arithmetic -/

/-- How many units of `2 ^ -1074` a finite double stands for. -/
def units (x : Binary64) : Int :=
  if x.isNegative then -(double.units x.bits.toNat : Int) else double.units x.bits.toNat

/-- The double nearest to `n / d` units. -/
def roundUnits (n : Int) (d : Nat) : Binary64 :=
  ⟨UInt64.ofNat ((if n < 0 then double.signBit else 0) + double.roundUnits n.natAbs d)⟩

/-- The double nearest to `n / d`. -/
def ofRatio (n : Int) (d : Nat) : Binary64 := roundUnits (n * 2 ^ double.unitExponent) d

/-- The double nearest to the sum of two finite doubles. A sum of zero is positive. -/
def add (x y : Binary64) : Binary64 := roundUnits (x.units + y.units) 1

/-! ### Items -/

/-- The item of a half. -/
def halfItem (bits : Nat) : Bytes := Head.first .simple 25 :: Bytes.fixed 2 bits

/-- The item of a single. -/
def singleItem (bits : Nat) : Bytes := Head.first .simple 26 :: Bytes.fixed 4 bits

/-- The item of a double. -/
def doubleItem (bits : Nat) : Bytes := Head.first .simple 27 :: Bytes.fixed 8 bits

/-- The item of NaN, whatever its sign and fraction. -/
def nanItem : Bytes := halfItem 0x7E00

/-- The item of an infinity. -/
def infinityItem (negative : Bool) : Bytes := halfItem (if negative then 0xFC00 else 0x7C00)

/-- The item of a double, in the shortest exact format if `compact`. -/
def item (compact : Bool) (x : Binary64) : Bytes :=
  if x.isNaN then nanItem
  else if x.isInfinite then infinityItem x.isNegative
  else
    match (if compact then half.narrow? x.bits.toNat else none) with
    | some bits => halfItem bits
    | none =>
      match (if compact then single.narrow? x.bits.toNat else none) with
      | some bits => singleItem bits
      | none => doubleItem x.bits.toNat

end Binary64

end CborGraph
