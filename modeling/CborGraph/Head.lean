import CborGraph.Bytes

/-!
# Heads

A data item begins with a head: three bits of major type and an unsigned argument
below `2^64`. The argument is written inside the first byte if it is below 24, and
otherwise in the shortest of one, two, four or eight bytes after it.
-/

namespace CborGraph

/-- The eight major types. -/
inductive Major
  | unsigned
  | negative
  | bytes
  | text
  | array
  | map
  | tag
  | simple
deriving DecidableEq

namespace Major

/-- The number of a major type. -/
def code : Major → UInt8
  | unsigned => 0
  | negative => 1
  | bytes => 2
  | text => 3
  | array => 4
  | map => 5
  | tag => 6
  | simple => 7

/-- The major type that the last three bits of `n` number. -/
def ofLowBits (n : UInt8) : Major :=
  match n.toNat % 8 with
  | 0 => unsigned
  | 1 => negative
  | 2 => bytes
  | 3 => text
  | 4 => array
  | 5 => map
  | 6 => tag
  | _ => simple

end Major

namespace Head

/-- The first byte: the major type in the high three bits, `info` in the low five. -/
def first (major : Major) (info : UInt8) : UInt8 := major.code <<< 5 ||| info

/-- The head of `major` with argument `n`, in the shortest form. -/
def bytes (major : Major) (n : UInt64) : Bytes :=
  if n < 24 then [first major n.toUInt8]
  else if n < 0x100 then first major 24 :: Bytes.fixed 1 n.toNat
  else if n < 0x10000 then first major 25 :: Bytes.fixed 2 n.toNat
  else if n < 0x100000000 then first major 26 :: Bytes.fixed 4 n.toNat
  else first major 27 :: Bytes.fixed 8 n.toNat

/-- The head of an item of `n` parts. -/
def ofLength (major : Major) (n : Nat) : Bytes := bytes major (UInt64.ofNat n)

end Head

/-! ### Tag numbers -/

namespace Tag

/-- A date and time as text. -/
def dateTimeText : UInt64 := 0

/-- A date and time as seconds since the epoch. -/
def epochSeconds : UInt64 := 1

/-- An integer of any size that is not negative. -/
def positiveBignum : UInt64 := 2

/-- A negative integer `-1 - n` of any size. -/
def negativeBignum : UInt64 := 3

/-- A decimal fraction `[exponent, mantissa]`. -/
def decimalFraction : UInt64 := 4

/-- A container that may be referred to later. -/
def shareable : UInt64 := 28

/-- A reference to a shareable container. -/
def reference : UInt64 := 29

/-- A rational number `[numerator, denominator]`. -/
def rational : UInt64 := 30

/-- The pattern of a regular expression. -/
def regex : UInt64 := 35

/-- A MIME message. -/
def mime : UInt64 := 36

/-- The sixteen bytes of a UUID. -/
def uuid : UInt64 := 37

end Tag

end CborGraph
