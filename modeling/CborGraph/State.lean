import CborGraph.Dispatch
import CborGraph.Error
import CborGraph.Head

/-!
# The state of an encoder

Output goes to a sink, which may have room for so many bytes only. A sink keeps a
journal of what was done, most recent first, and what has been written is what the
events of the journal wrote. Besides the sink an encoder keeps

* whether sharing is on,
* the containers that were marked in this document, with the index each was given,
* the containers that are open, innermost first,
* how many calls deep it is,
* the number of the next container to be made, and
* notes of what was observed or attempted.
-/

namespace CborGraph

/-! ### Sinks -/

/-- What happened during an encoding. -/
inductive Event
  /-- Bytes were written. -/
  | wrote (bs : Bytes)
  /-- The container was marked as shareable. -/
  | marked (id : Ident)
  /-- A reference to a marked container was written. -/
  | referred (id : Ident) (index : Nat)
  /-- The container was opened. -/
  | entered (id : Ident)
  /-- The container was closed. -/
  | left (id : Ident)
  /-- A value with this exact key was passed to the table, which found the entry under
  the other key, or nothing. -/
  | dispatched (key : TypeKey) (found : Option TypeKey)
deriving DecidableEq

/-- The bytes that an event writes. -/
def Event.bytes : Event → Bytes
  | wrote bs => bs
  | marked _ => Head.bytes .tag Tag.shareable
  | referred _ index => Head.bytes .tag Tag.reference ++ Head.ofLength .unsigned index
  | entered _ => []
  | left _ => []
  | dispatched _ _ => []

/-- How a full sink refuses a write. -/
inductive Refusal
  /-- By an error of its own. -/
  | fails
  /-- By taking none of the bytes. -/
  | stalls
deriving DecidableEq

/-- The error that a refused write ends in. -/
def Refusal.error : Refusal → EncodeError
  | fails => .io "sink full"
  | stalls => .io "failed to write whole buffer"

/-- Where output goes. -/
structure Sink where
  /-- How many more bytes the sink takes, if there is a limit. -/
  room : Option Nat
  /-- How the sink refuses. -/
  refusal : Refusal
  /-- What was done, most recent first. -/
  journal : List Event

namespace Sink

/-- A sink that takes everything. -/
def unlimited : Sink := ⟨none, .fails, []⟩

/-- A sink that takes `n` bytes. -/
def limited (n : Nat) (refusal : Refusal) : Sink := ⟨some n, refusal, []⟩

/-- All bytes written so far. -/
def bytes (s : Sink) : Bytes := s.journal.reverse.flatMap Event.bytes

/-- The sink after an event. If there is not room for all its bytes, those that there is
room for are written, and the write is refused. -/
def put (s : Sink) (e : Event) : Option EncodeError × Sink :=
  match s.room with
  | none => (none, { s with journal := e :: s.journal })
  | some n =>
    if e.bytes.length ≤ n then
      (none, { s with room := some (n - e.bytes.length), journal := e :: s.journal })
    else
      (some s.refusal.error,
        { s with room := some 0, journal := .wrote (e.bytes.take n) :: s.journal })

end Sink

/-! ### States -/

/-- Something to tell the caller about a run besides its output. -/
inductive Note
  /-- An attempt succeeded. -/
  | succeeded
  /-- An attempt failed. -/
  | failed (e : EncodeError)
  /-- Sharing was found on or off. -/
  | sharing (on : Bool)
deriving DecidableEq

/-- What an encoder keeps. -/
structure State where
  /-- Where output goes. -/
  sink : Sink
  /-- Whether containers are marked and referred to. -/
  sharing : Bool
  /-- The containers marked in this document and their indexes. -/
  marks : List (Ident × Nat)
  /-- The containers that are open. -/
  opened : List Ident
  /-- How many values being encoded are inside one another. -/
  depth : Nat
  /-- The number of the next container to be made. -/
  next : Nat
  /-- What was observed and attempted, most recent first. -/
  notes : List Note

/-- How a run ends. -/
inductive Outcome
  /-- It came to its end. -/
  | done
  /-- It stopped at an error. -/
  | failed (e : EncodeError)
  /-- It reached the limit of nesting. -/
  | exhausted
deriving DecidableEq

/-- A run takes a state to an outcome and a state. -/
abbrev Run := State → Outcome × State

/-- One run after another, if the first came to its end. -/
def Run.andThen (r k : Run) : Run := fun s =>
  match r s with
  | (.done, s) => k s
  | (o, s) => (o, s)

/-- What a container is to be treated as on entry. -/
inductive Admission
  /-- A container to mark and enter. -/
  | fresh
  /-- A container to enter. -/
  | plain
  /-- A container that was marked before. -/
  | marked (index : Nat)
  /-- A container that is open and must not be entered again. -/
  | cyclic
deriving DecidableEq

namespace State

/-- The state of a new encoder, which numbers new containers from `next` on. -/
def initial (sink : Sink) (sharing : Bool) (next : Nat) : State :=
  ⟨sink, sharing, [], [], 0, next, []⟩

/-- Record an event and write its bytes. -/
def put (e : Event) : Run := fun s =>
  match s.sink.put e with
  | (none, sink) => (.done, { s with sink })
  | (some err, sink) => (.failed err, { s with sink })

/-- Record an event that writes nothing. -/
def record (s : State) (e : Event) : State :=
  { s with sink := { s.sink with journal := e :: s.sink.journal } }

/-- Take a note. -/
def note (s : State) (n : Note) : State := { s with notes := n :: s.notes }

/-- What a container is to be treated as. With sharing on, a marked one is referred to
and any other is marked; with sharing off, an open one closes a cycle. -/
def admission (s : State) (id : Ident) : Admission :=
  if s.sharing then
    match s.marks.lookup id with
    | some index => .marked index
    | none => .fresh
  else if id ∈ s.opened then .cyclic else .plain

/-- Give the container an index: the number of containers open. -/
def mark (s : State) (id : Ident) : State := { s with marks := (id, s.opened.length) :: s.marks }

/-- Open a container. -/
def enter (s : State) (id : Ident) : State :=
  { s with opened := s.opened.insert id }.record (.entered id)

/-- Close a container. -/
def leave (s : State) (id : Ident) : State :=
  { s with opened := s.opened.erase id }.record (.left id)

/-- Forget the marks if no value is being encoded, for a new document begins. -/
def beginDocument (s : State) : State := if s.depth = 0 then { s with marks := [] } else s

end State

end CborGraph
