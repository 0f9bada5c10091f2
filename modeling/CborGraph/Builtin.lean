import CborGraph.Op

/-!
# Built-in encoder functions

How each built-in type is written, and the table of built-in encoder functions. A
function accepts only the values that it is meant for, and fails for every other.

An integer whose argument fits in 64 bits is a head, and any other a bignum: a byte
string under a tag. Decimals, rationals and bignums build what they stand for afresh, so
the pairs of decimals and rationals are encoded with sharing off.
-/

namespace CborGraph

-- Powers are those of the core library, also where others are in scope.
attribute [local instance (high)] instPowNat

/-- What the encoder functions are told by the caller. -/
structure Settings where
  /-- Dates and times are numbers instead of texts. -/
  timestampMode : Bool := false
  /-- The offset of dates and times that have none. -/
  timezone : Option Offset := none
  /-- Floats are written in the shortest exact format. -/
  compactFloats : Bool := false
deriving DecidableEq

/-- What an encoder does for a value, given the settings and what is in every container. -/
abbrev EncodeFn := Settings → View → Value → List Op

/-! ### Writing what values stand for -/

namespace Op

/-- A bignum with the argument `arg`. -/
def bignum (number : UInt64) (arg : Bytes) : List Op :=
  semantic number (.known (.bytes (Bytes.stripZeros arg))) false

/-- The major type of integers with this sign. -/
def integerMajor (negative : Bool) : Major := if negative then .negative else .unsigned

/-- The tag of bignums with this sign. -/
def bignumTag (negative : Bool) : UInt64 :=
  if negative then Tag.negativeBignum else Tag.positiveBignum

/-- An integer. -/
def integer (i : Int) : List Op :=
  let arg := (if i < 0 then -1 - i else i).toNat
  if arg < 2 ^ (64 : Nat) then [head (integerMajor (i < 0)) (UInt64.ofNat arg)]
  else bignum (bignumTag (i < 0)) (Bytes.ofNat arg)

/-- An integer in bytes. -/
def bigInt (n : BigInt) : List Op :=
  if n.argument.length ≤ 8 then
    [head (integerMajor n.negative) (UInt64.ofNat (Bytes.toNat n.argument))]
  else bignum (bignumTag n.negative) n.argument

/-- A double. -/
def float (settings : Settings) (x : Binary64) : List Op := [write (x.item settings.compactFloats)]

/-- A truth value. -/
def bool (b : Bool) : List Op := [head .simple (if b then 21 else 20)]

/-- Null. -/
def null : List Op := [head .simple 22]

/-- Undefined. -/
def undefined : List Op := [head .simple 23]

/-- A decimal number: exponent and mantissa, or the item of a float that is no number. -/
def decimal : Decimal → List Op
  | .nan => [write Binary64.nanItem]
  | .infinity => [write (Binary64.infinityItem false)]
  | .negInfinity => [write (Binary64.infinityItem true)]
  | .finite mantissa exponent =>
    semantic Tag.decimalFraction
      (.array [.known (.integer exponent), .known (.bigInt mantissa)]) true

/-- A rational number: numerator and denominator. -/
def rational (r : Rational) : List Op :=
  semantic Tag.rational
    (.array [.known (.integer r.numerator), .known (.integer r.denominator)]) true

/-- What a date and time is in timestamp mode: the second, or a double if there are
microseconds. -/
def timestamp (t : DateTime) : Value := if t.micros = 0 then .integer t.seconds else .float t.epochDouble

/-- A date and time. -/
def dateTime (settings : Settings) (t : DateTime) : List Op :=
  if settings.timestampMode then semantic Tag.epochSeconds (.known (timestamp t)) false
  else semantic Tag.dateTimeText (.known (.text (String.ofList t.isoText))) false

/-- A date and time with no offset, at the time zone of the settings. -/
def naiveDateTime (settings : Settings) (t : NaiveDateTime) : List Op :=
  match settings.timezone.bind t.at? with
  | some t => dateTime settings t
  | none => [fail .naiveDateTime]

end Op

/-! ### The functions -/

/-- The built-in encoder functions. -/
inductive Builtin
  | text
  | bytes
  | integer
  | bigInt
  | float
  | decimal
  | bool
  | null
  | undefined
  | sequence
  | mapping
  | dateTime
  | date
  | regex
  | rational
  | mime
  | uuid
  | tag
deriving DecidableEq

namespace Builtin

/-- What a function does for a value that it is meant for. -/
def ops? (settings : Settings) (view : View) : Builtin → Value → Option (List Op)
  | text, .text s => some (Op.text s)
  | bytes, .bytes bs => some (Op.bytes bs)
  | integer, .integer i => some (Op.integer i)
  | bigInt, .bigInt n => some (Op.bigInt n)
  | float, .float x => some (Op.float settings x)
  | decimal, .decimal d => some (Op.decimal d)
  | bool, .bool b => some (Op.bool b)
  | null, .null => some Op.null
  | undefined, .undefined => some Op.undefined
  | sequence, .container id =>
    (view.cell id).sequence?.map fun items =>
      [.container (.existing id) .array items.length (Op.items (items.map .known))]
  | mapping, .container id =>
    (view.cell id).mapping?.map fun entries =>
      [.container (.existing id) .map entries.length
        (Op.entries (entries.map fun (k, v) => (.known k, .known v)))]
  | dateTime, .dateTime t => some (Op.dateTime settings t)
  | dateTime, .naiveDateTime t => some (Op.naiveDateTime settings t)
  | date, .date d => some (Op.dateTime settings (.ofDate d))
  | regex, .regex pattern => some (Op.semantic Tag.regex (.known (.text pattern)) false)
  | rational, .rational r => some (Op.rational r)
  | mime, .mime m => some (Op.semantic Tag.mime (.known (.text m.text)) false)
  | uuid, .uuid u => some (Op.semantic Tag.uuid (.known (.bytes u.bytes)) false)
  | tag, .tag number v => some (Op.semantic number (.known v) false)
  | _, _ => none

/-- The function, which fails for a value that it is not meant for. -/
def ops (f : Builtin) : EncodeFn := fun settings view v =>
  (ops? settings view f v).getD [.fail (.unsupportedType (view.typeName v))]

/-- The built-in functions by key, in the order of the table. -/
def entries : List (TypeKey × Builtin) := [
  (.kind .text, text),
  (.kind .bytes, bytes),
  (.kind .integer, integer),
  (.kind .bigInt, bigInt),
  (.kind .float, float),
  (.kind .decimal, decimal),
  (.kind .bool, bool),
  (.kind .null, null),
  (.kind .undefined, undefined),
  (.kind .array, sequence),
  (.kind .map, mapping),
  (.capability .mapping, mapping),
  (.capability .sequence, sequence),
  (.kind .dateTime, dateTime),
  (.kind .naiveDateTime, dateTime),
  (.kind .date, date),
  (.kind .regex, regex),
  (.kind .rational, rational),
  (.kind .mime, mime),
  (.kind .uuid, uuid),
  (.kind .tag, tag)]

end Builtin

/-- The built-in entries, each read as `f` says, with the caller's own laid over them. -/
def Table.layered {α : Type} (f : Builtin → α) (overrides : List (TypeKey × α)) : Table α :=
  (Table.empty.insertAll (Builtin.entries.map fun (key, b) => (key, f b))).insertAll overrides

end CborGraph
