import CborGraph.Encoder

/-!
# Serialised data

The data model of a serialisation framework: scalars of every width, options, units,
sequences, tuples, maps, structures and variants of enumerations. `Data.toValue` places
data in a graph. Every sequence is a new array, every map or structure a new map, and a
variant with contents a map from its name to them. Names of types, lengths announced
beforehand and the widths of numbers leave no trace in it.

Data may be broken: a value may refuse to be serialised, and the value of a map's entry
may come without a key. The first such place, in the order of the data, is the error.

Before the elements of a list come, room is made for as many as were announced. If these
take more bytes than a list can have, the run ends there with neither a value nor an
error. Whether there is memory for a list that is not too long is not modelled.
-/

namespace CborGraph

/-! ### Room -/

/-- How many bytes the elements of lists take, which is up to the compiler. -/
structure Layout where
  /-- The bytes of an item of an array. -/
  item : Nat
  /-- The bytes of an entry of a map. -/
  entry : Nat
  /-- An item takes room. -/
  item_pos : 0 < item
  /-- There are a key and a value in an entry. -/
  item_add_item_le : item + item ≤ entry

/-- The most bytes that a list can have: the greatest number in a signed word. -/
def mostBytes : Nat := 0x7FFFFFFFFFFFFFFF

/-- Why data has no value. -/
inductive Data.Fault
  /-- An error is returned. -/
  | error (e : EncodeError)
  /-- Room was to be made for more bytes than a list can have. Nothing is returned. -/
  | capacityOverflow
deriving DecidableEq

/-- Make room for so many bytes in a new list. -/
def Data.makeRoom (bytes : Nat) : Except Data.Fault Unit :=
  if bytes ≤ mostBytes then .ok () else .error .capacityOverflow

/-! ### Data -/

mutual

/-- Serialised data. -/
inductive Data
  /-- A truth value. -/
  | bool (b : Bool)
  /-- An integer of at most 128 bits, with or without a sign. -/
  | integer (i : Int)
  /-- A single. -/
  | single (bits : UInt32)
  /-- A double. -/
  | double (x : Binary64)
  /-- A character. -/
  | char (c : Char)
  /-- A text. -/
  | text (s : String)
  /-- A byte string. -/
  | bytes (bs : Bytes)
  /-- A missing option. -/
  | none
  /-- An option that is there. -/
  | some (d : Data)
  /-- The unit. -/
  | unit
  /-- A structure without fields. -/
  | unitStruct (name : String)
  /-- A variant without contents. -/
  | unitVariant (variant : String)
  /-- A structure around one thing. -/
  | newtypeStruct (name : String) (d : Data)
  /-- A variant around one thing. -/
  | newtypeVariant (variant : String) (d : Data)
  /-- A sequence; a length may have been announced, rightly or wrongly. -/
  | seq (length : Option UInt64) (items : List Data)
  /-- A tuple, with its announced length. -/
  | tuple (length : UInt64) (items : List Data)
  /-- A structure whose fields have no names. -/
  | tupleStruct (name : String) (length : UInt64) (items : List Data)
  /-- A variant whose fields have no names. -/
  | tupleVariant (variant : String) (length : UInt64) (items : List Data)
  /-- A map, as the calls that supply its keys and values. -/
  | map (length : Option UInt64) (calls : List MapCall)
  /-- A structure; a field without data is skipped. -/
  | struct (name : String) (length : UInt64) (fields : List (String × Option Data))
  /-- A variant with named fields. -/
  | structVariant (variant : String) (length : UInt64) (fields : List (String × Option Data))
  /-- Whether the format is meant for people to read. -/
  | humanReadable
  /-- Data that refuses. -/
  | refused (text : String)

/-- A call that supplies a part of a map. -/
inductive MapCall
  /-- The key of the next entry. It takes the place of a key that has no value yet. -/
  | key (d : Data)
  /-- The value of the key before it. -/
  | value (d : Data)
  /-- A key and its value. -/
  | entry (k v : Data)

end

namespace Data

/-- The error of a value that comes without a key. -/
def keyMissing : EncodeError := .serialization "serialize_value called before serialize_key"

/-- A new array. -/
def newArray (items : List Value) (g : Graph) : Value × Graph :=
  let (id, g) := g.add (.array items)
  (.container id, g)

/-- A new map. -/
def newMap (entries : List (Value × Value)) (g : Graph) : Value × Graph :=
  let (id, g) := g.add (.map entries)
  (.container id, g)

/-- A new map from the name of a variant to its contents. -/
def newVariant (variant : String) (v : Value) (g : Graph) : Value × Graph :=
  newMap [(.text variant, v)] g

section

variable (layout : Layout)

mutual

/-- The value of data, and the graph with its containers in it. -/
def toValue : Data → Graph → Except Fault (Value × Graph)
  | bool b, g => .ok (.bool b, g)
  | integer i, g => .ok (.ofInt i, g)
  | single bits, g => .ok (.float (.ofSingle bits), g)
  | double x, g => .ok (.float x, g)
  | char c, g => .ok (.text (String.singleton c), g)
  | text s, g => .ok (.text s, g)
  | bytes bs, g => .ok (.bytes bs, g)
  | none, g => .ok (.null, g)
  | some d, g => toValue d g
  | unit, g => .ok (.null, g)
  | unitStruct _, g => .ok (.null, g)
  | unitVariant variant, g => .ok (.text variant, g)
  | newtypeStruct _ d, g => toValue d g
  | newtypeVariant variant d, g => do
    let (v, g) ← toValue d g
    .ok (newVariant variant v g)
  | seq length items, g => do
    makeRoom (layout.item * (length.getD 0).toNat)
    let (items, g) ← toItems items g
    .ok (newArray items g)
  | tuple length items, g => do
    makeRoom (layout.item * length.toNat)
    let (items, g) ← toItems items g
    .ok (newArray items g)
  | tupleStruct _ length items, g => do
    makeRoom (layout.item * length.toNat)
    let (items, g) ← toItems items g
    .ok (newArray items g)
  | tupleVariant variant length items, g => do
    makeRoom (layout.item * length.toNat)
    let (items, g) ← toItems items g
    let (v, g) := newArray items g
    .ok (newVariant variant v g)
  | map length calls, g => do
    makeRoom (layout.entry * (length.getD 0).toNat)
    let (entries, g) ← toEntries calls Option.none g
    .ok (newMap entries g)
  | struct _ length fields, g => do
    makeRoom (layout.entry * length.toNat)
    let (entries, g) ← toFields fields g
    .ok (newMap entries g)
  | structVariant variant length fields, g => do
    makeRoom (layout.entry * length.toNat)
    let (entries, g) ← toFields fields g
    let (v, g) := newMap entries g
    .ok (newVariant variant v g)
  | humanReadable, g => .ok (.bool false, g)
  | refused s, _ => .error (.error (.serialization s))

/-- The values of items in order. -/
def toItems : List Data → Graph → Except Fault (List Value × Graph)
  | [], g => .ok ([], g)
  | d :: ds, g => do
    let (v, g) ← toValue d g
    let (vs, g) ← toItems ds g
    .ok (v :: vs, g)

/-- The entries that calls supply, when `pending` is a key whose value has not come. A
key that never gets a value is dropped. -/
def toEntries : List MapCall → Option Value → Graph → Except Fault (List (Value × Value) × Graph)
  | [], _, g => .ok ([], g)
  | .key d :: calls, _, g => do
    let (k, g) ← toValue d g
    toEntries calls (Option.some k) g
  | .value _ :: _, Option.none, _ => .error (.error keyMissing)
  | .value d :: calls, Option.some k, g => do
    let (v, g) ← toValue d g
    let (rest, g) ← toEntries calls Option.none g
    .ok ((k, v) :: rest, g)
  | .entry k d :: calls, _, g => do
    let (k, g) ← toValue k g
    let (v, g) ← toValue d g
    let (rest, g) ← toEntries calls Option.none g
    .ok ((k, v) :: rest, g)

/-- The entries of fields that are not skipped. -/
def toFields : List (String × Option Data) → Graph → Except Fault (List (Value × Value) × Graph)
  | [], g => .ok ([], g)
  | (name, Option.some d) :: fields, g => do
    let (v, g) ← toValue d g
    let (rest, g) ← toFields fields g
    .ok ((.text name, v) :: rest, g)
  | (_, Option.none) :: fields, g => toFields fields g

end

end

end Data

variable (layout : Layout)

/-- Encode data into a sink. If the data is broken, nothing is written. If room cannot be
made there is no outcome. -/
def Data.encode (o : Options) (d : Data) (sink : Sink) : Option Outcome × Sink :=
  match d.toValue layout .empty with
  | .ok (v, g) => (CborGraph.encode o g v sink).map Option.some id
  | .error (.error e) => (Option.some (.failed e), sink)
  | .error .capacityOverflow => (Option.none, sink)

/-- The bytes of data, or why there are none. `none` is the limit of nesting. -/
def Data.encodeToBytes (o : Options) (d : Data) : Option (Except Data.Fault Bytes) :=
  match d.toValue layout .empty with
  | .ok (v, g) => (CborGraph.encodeToBytes o g v).map (Except.mapError .error)
  | .error fault => Option.some (.error fault)

end CborGraph
