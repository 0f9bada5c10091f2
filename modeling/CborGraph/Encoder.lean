import CborGraph.Builtin

/-!
# Encoding

`encodeValue` looks a value up in the dispatch table and runs what the entry says, one
call deeper. Its first argument bounds how deep calls may go. An `Encoder` is a state
with a table and settings, kept over any number of documents and of operations outside
documents; the bound that it uses is the depth of the graph, with an allowance for the
nesting that the caller's own encoder functions add.

`encode` and `encodeToBytes` write one document with an encoder of their own.
-/

namespace CborGraph

/-- Encode a value by the entry that the table has for it. A call that is not inside
another begins a new document. -/
def encodeValue (table : Table EncodeFn) (settings : Settings) :
    Nat → View → Value → State → Outcome × State
  | 0, _, _, s => (.exhausted, s)
  | limit + 1, view, v, s =>
    let s := s.beginDocument
    match table.resolve view v with
    | none =>
      (.failed (.unsupportedType (view.typeName v)), s.record (.dispatched (view.typeKey v) none))
    | some (key, f) =>
      let s := s.record (.dispatched (view.typeKey v) (some key))
      let (o, s) := Op.runAll (encodeValue table settings limit) view (f settings view v)
        { s with depth := s.depth + 1 }
      (o, { s with depth := s.depth - 1 })

/-! ### Options -/

/-- What the caller chooses. -/
structure Options extends Settings where
  /-- Containers that are met again are referred to. -/
  sharing : Bool := false
  /-- The caller's own encoder functions, in the order of registration. -/
  overrides : List (TypeKey × EncodeFn) := []

namespace Options

/-- The dispatch table: the caller's own functions over the built-in ones. -/
def table (o : Options) : Table EncodeFn := Table.layered Builtin.ops o.overrides

/-- The options in a listing. -/
def listing (o : Options) : String :=
  "EncoderOptions \x7b timestamp_mode: " ++ toString o.timestampMode ++ ", default_timezone: " ++
    (match o.timezone with
      | none => "None"
      | some z => "Some(" ++ String.ofList z.clock ++ ")") ++
    ", value_sharing: " ++ toString o.sharing ++ ", overrides: " ++
    TypeKey.listing (o.overrides.map (·.1)) ++ " \x7d"

end Options

/-! ### Encoders -/

/-- An encoder between documents or operations. -/
structure Encoder where
  /-- What the encoder functions are told. -/
  settings : Settings
  /-- The dispatch table. -/
  table : Table EncodeFn
  /-- What the encoder keeps. -/
  state : State

namespace Encoder

/-- A new encoder on a sink, which numbers new containers from `next` on. -/
def ofOptions (o : Options) (sink : Sink) (next : Nat := 0) : Encoder :=
  ⟨o.toSettings, o.table, .initial sink o.sharing next⟩

/-- How deep the caller's own encoder functions may nest values beyond the graph. -/
def allowance : Nat := 1000000

/-- How deep calls may go when the values of a graph are encoded. -/
def nestingLimit (g : Graph) : Nat := g.depth + allowance

/-- The encoder in another state. -/
def withState (e : Encoder) (r : Outcome × State) : Outcome × Encoder :=
  (r.1, { e with state := r.2 })

/-- Encode a value of a graph. -/
def encode (e : Encoder) (g : Graph) (v : Value) : Outcome × Encoder :=
  e.withState (encodeValue e.table e.settings (nestingLimit g + v.tagDepth) g.view v e.state)

/-- Run operations on the values of a graph. -/
def perform (e : Encoder) (g : Graph) (ops : List Op) : Outcome × Encoder :=
  e.withState (Op.runAll (encodeValue e.table e.settings (nestingLimit g)) g.view ops e.state)

/-- The encoder with no notes. -/
def clearNotes (e : Encoder) : Encoder := { e with state := { e.state with notes := [] } }

end Encoder

/-- Encode a value of a graph into a sink with an encoder of its own. What was written
before an error stays written. -/
def encode (o : Options) (g : Graph) (v : Value) (sink : Sink) : Outcome × Sink :=
  let (outcome, e) := (Encoder.ofOptions o sink).encode g v
  (outcome, e.state.sink)

/-- What an encoding has come to: all bytes of the sink, or an error. `none` is the limit
of nesting. -/
def bytesOrError : Outcome × Sink → Option (Except EncodeError Bytes)
  | (.done, sink) => some (.ok sink.bytes)
  | (.failed e, _) => some (.error e)
  | (.exhausted, _) => none

/-- The bytes of a value, or why there are none. `none` is the limit of nesting. -/
def encodeToBytes (o : Options) (g : Graph) (v : Value) : Option (Except EncodeError Bytes) :=
  bytesOrError (encode o g v .unlimited)

end CborGraph
