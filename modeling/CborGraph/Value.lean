import CborGraph.DateTime
import CborGraph.Decimal
import CborGraph.Mime
import CborGraph.Rational

/-!
# Values

A value is a scalar, a tag around a value, or a reference to a container. Arrays, maps
and values of the caller's own types are containers: what is in them is kept elsewhere,
under their identity, so that several references may lead to one container and a
container may lead to itself.

`Kind` names the built-in types. The kind of a container is not in the reference to it;
see `View.kind?`.
-/

namespace CborGraph

/-- Which container a reference leads to. Two containers with the same contents have
different identities. -/
inductive Ident
  /-- A container of a graph, by its place there. -/
  | stored (place : Nat)
  /-- A container that was made while encoding, by a number of its own. -/
  | temporary (number : Nat)
deriving DecidableEq

/-- A UUID. -/
structure Uuid where
  /-- Its bytes. -/
  bytes : Bytes
  /-- There are sixteen. -/
  length_eq : bytes.length = 16
deriving DecidableEq

/-- The UUID with these bytes, if there are sixteen. -/
def Uuid.ofBytes? (bs : Bytes) : Option Uuid :=
  if h : bs.length = 16 then some ⟨bs, h⟩ else none

/-- A value to encode. -/
inductive Value
  /-- The null value. -/
  | null
  /-- The undefined value. -/
  | undefined
  /-- A truth value. -/
  | bool (b : Bool)
  /-- An integer. -/
  | integer (i : Int)
  /-- An integer kept in bytes. -/
  | bigInt (n : BigInt)
  /-- A double. -/
  | float (x : Binary64)
  /-- A byte string. -/
  | bytes (bs : Bytes)
  /-- A text. -/
  | text (s : String)
  /-- A date and time at an offset. -/
  | dateTime (t : DateTime)
  /-- A date and time with no offset. -/
  | naiveDateTime (t : NaiveDateTime)
  /-- A day. -/
  | date (d : Date)
  /-- A decimal number. -/
  | decimal (d : Decimal)
  /-- A rational number. -/
  | rational (r : Rational)
  /-- The pattern of a regular expression. -/
  | regex (pattern : String)
  /-- A MIME message. -/
  | mime (m : MimeMessage)
  /-- A UUID. -/
  | uuid (u : Uuid)
  /-- A value with a tag number. -/
  | tag (number : UInt64) (value : Value)
  /-- A reference to a container. -/
  | container (id : Ident)
deriving DecidableEq

/-- The built-in types of values. -/
inductive Kind
  | null
  | undefined
  | bool
  | integer
  | bigInt
  | float
  | bytes
  | text
  | array
  | map
  | dateTime
  | naiveDateTime
  | date
  | decimal
  | rational
  | regex
  | mime
  | uuid
  | tag
deriving DecidableEq

namespace Kind

/-- The name of a kind in messages. -/
def name : Kind → String
  | null => "null"
  | undefined => "undefined"
  | bool => "bool"
  | integer => "integer"
  | bigInt => "bigint"
  | float => "float"
  | bytes => "bytes"
  | text => "text"
  | array => "array"
  | map => "map"
  | dateTime => "datetime"
  | naiveDateTime => "naive datetime"
  | date => "date"
  | decimal => "decimal"
  | rational => "rational"
  | regex => "regex"
  | mime => "mime message"
  | uuid => "uuid"
  | tag => "tag"

/-- The label of a kind in listings. -/
def label : Kind → String
  | null => "Null"
  | undefined => "Undefined"
  | bool => "Bool"
  | integer => "Integer"
  | bigInt => "BigInt"
  | float => "Float"
  | bytes => "Bytes"
  | text => "Text"
  | array => "Array"
  | map => "Map"
  | dateTime => "DateTime"
  | naiveDateTime => "NaiveDateTime"
  | date => "Date"
  | decimal => "Decimal"
  | rational => "Rational"
  | regex => "Regex"
  | mime => "Mime"
  | uuid => "Uuid"
  | tag => "Tag"

/-- Every kind. -/
def all : List Kind :=
  [null, undefined, bool, integer, bigInt, float, bytes, text, array, map, dateTime,
    naiveDateTime, date, decimal, rational, regex, mime, uuid, tag]

theorem mem_all (k : Kind) : k ∈ all := by cases k <;> decide

/-- The kind with a label. -/
def ofLabel? (s : String) : Option Kind := all.find? (·.label == s)

end Kind

namespace Value

/-- An integer of any size: kept as it is if 128 bits hold it, and otherwise in bytes. -/
def ofInt (i : Int) : Value := if FitsSigned 128 i then .integer i else .bigInt (BigInt.ofInt i)

/-- A value that may be missing: null stands for a missing one. -/
def ofOption : Option Value → Value
  | none => .null
  | some v => v

/-- The identity behind the value, if it is a reference. -/
def ident? : Value → Option Ident
  | container id => some id
  | _ => none

/-- The text that the value is. -/
def text? : Value → Option String
  | text s => some s
  | _ => none

/-- How many tags stand around the value. -/
def tagDepth : Value → Nat
  | tag _ v => v.tagDepth + 1
  | _ => 0

end Value

end CborGraph
