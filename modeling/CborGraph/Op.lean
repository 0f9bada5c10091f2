import CborGraph.Draft
import CborGraph.State

/-!
# Operations

What an encoder function tells the encoder to do. Operations are run one after the
other, and the first that fails ends the run; an attempt takes note of a failure and
goes on.
-/

namespace CborGraph

/-- The identity under which a container is written. -/
inductive Owner
  /-- That of a container there is. -/
  | existing (id : Ident)
  /-- A new one. -/
  | fresh
deriving DecidableEq

/-- Something an encoder does. -/
inductive Op
  /-- Write bytes. -/
  | write (bs : Bytes)
  /-- Encode a value. -/
  | encode (d : Draft)
  /-- Run `body` with sharing off, and then put sharing back. -/
  | suspended (body : List Op)
  /-- Write a container: its head, then `body`. -/
  | container (owner : Owner) (major : Major) (length : Nat) (body : List Op)
  /-- Run `body` and note how it ended. -/
  | attempt (body : List Op)
  /-- Fail. -/
  | fail (e : EncodeError)
  /-- Note whether sharing is on. -/
  | observe

namespace Op

/-- Encode a value there is. -/
def value (v : Value) : Op := encode (.known v)

/-- Write a head. -/
def head (major : Major) (n : UInt64) : Op := write (Head.bytes major n)

/-- Write a tag and encode what it stands for, with sharing off if asked. -/
def semantic (number : UInt64) (d : Draft) (withoutSharing : Bool) : List Op :=
  [head .tag number, if withoutSharing then suspended [encode d] else encode d]

/-- Write a byte string. -/
def bytes (bs : Bytes) : List Op := [write (Head.ofLength .bytes bs.length), write bs]

/-- Write a text. -/
def text (s : String) : List Op :=
  [write (Head.ofLength .text (Bytes.ofString s).length), write (Bytes.ofString s)]

/-- Encode items in order. -/
def items (ds : List Draft) : List Op := ds.map encode

/-- Encode entries in order, each key before its value. -/
def entries (ds : List (Draft × Draft)) : List Op := ds.flatMap fun (k, v) => [encode k, encode v]

end Op

/-! ### Running -/

/-- The identity of an owner. A new one takes the next number. -/
def Owner.ident (o : Owner) (s : State) : Ident × State :=
  match o with
  | existing id => (id, s)
  | fresh => (.temporary s.next, { s with next := s.next + 1 })

namespace Op

mutual

/-- Run an operation. `call` encodes a value; the containers of a draft are seen by the
call that encodes it and by nothing else. -/
def run (call : View → Value → Run) (view : View) : Op → State → Outcome × State
  | write bs, s => State.put (.wrote bs) s
  | encode d, s =>
    let (v, cells) := d.place (fun k => .temporary (s.next + k)) [] #[]
    call (view.extend s.next cells) v { s with next := s.next + cells.size }
  | suspended body, s =>
    let (o, t) := runAll call view body { s with sharing := false }
    (o, { t with sharing := s.sharing })
  | container owner major length body, s =>
    if length = 0 then State.put (.wrote (Head.ofLength major 0)) s
    else
      let (id, s) := owner.ident s
      let enter := (State.put (.wrote (Head.ofLength major length))).andThen fun s =>
        let (o, t) := runAll call view body (s.enter id)
        (o, t.leave id)
      match s.admission id with
      | .marked index => State.put (.referred id index) s
      | .cyclic => (.failed .cyclicStructure, s)
      | .fresh => (State.put (.marked id)).andThen enter (s.mark id)
      | .plain => enter s
  | attempt body, s =>
    match runAll call view body s with
    | (.done, t) => (.done, t.note .succeeded)
    | (.failed e, t) => (.done, t.note (.failed e))
    | (.exhausted, t) => (.exhausted, t)
  | fail e, s => (.failed e, s)
  | observe, s => (.done, s.note (.sharing s.sharing))

/-- Run operations in order. -/
def runAll (call : View → Value → Run) (view : View) : List Op → State → Outcome × State
  | [], s => (.done, s)
  | op :: ops, s =>
    match run call view op s with
    | (.done, s) => runAll call view ops s
    | (o, s) => (o, s)

end

end Op

end CborGraph
