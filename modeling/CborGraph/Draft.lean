import CborGraph.Graph

/-!
# Drafts

A draft is a value written out in full. Its containers are new each time it is placed:
`Draft.place` adds them to an array of containers, inner ones first, and gives each the
name of its place there. A part that is to be one container in several places is bound
once and named by how many bindings stand between.
-/

namespace CborGraph

/-- A value with new containers in it. -/
inductive Draft
  /-- A value there is already. -/
  | known (v : Value)
  /-- The part bound `i` bindings further out. -/
  | part (i : Nat)
  /-- `body`, in which the innermost part is `part`. -/
  | bind (part body : Draft)
  /-- A new array. -/
  | array (items : List Draft)
  /-- A new map. -/
  | map (entries : List (Draft × Draft))
  /-- A new value of the caller's own. -/
  | custom (typeName : String) (fields : List Int) (sequence : Option (List Draft))
    (mapping : Option (List (Draft × Draft)))
  /-- A tag around a draft. -/
  | tag (number : UInt64) (d : Draft)

namespace Draft

mutual

/-- The value of a draft and the containers with its own added to them. `name` names the
container at a place, `parts` are the values of the bound parts, innermost first. -/
def place (name : Nat → Ident) (parts : List Value) : Draft → Array Cell → Value × Array Cell
  | known v, cells => (v, cells)
  | part i, cells => (parts.getD i .null, cells)
  | bind d body, cells =>
    let (v, cells) := place name parts d cells
    place name (v :: parts) body cells
  | array items, cells =>
    let (items, cells) := placeItems name parts items [] cells
    (.container (name cells.size), cells.push (.array items))
  | map entries, cells =>
    let (entries, cells) := placeEntries name parts entries [] cells
    (.container (name cells.size), cells.push (.map entries))
  | custom typeName fields sequence mapping, cells =>
    let (sequence, cells) := placeSequence name parts sequence cells
    let (mapping, cells) := placeMapping name parts mapping cells
    (.container (name cells.size), cells.push (.custom ⟨typeName, fields, sequence, mapping⟩))
  | tag number d, cells =>
    let (v, cells) := place name parts d cells
    (.tag number v, cells)

/-- The values of drafts in order, after the values `before`, which are in reverse. -/
def placeItems (name : Nat → Ident) (parts : List Value) :
    List Draft → List Value → Array Cell → List Value × Array Cell
  | [], before, cells => (before.reverse, cells)
  | d :: ds, before, cells =>
    let (v, cells) := place name parts d cells
    placeItems name parts ds (v :: before) cells

/-- The values of pairs of drafts in order, a key before its value. -/
def placeEntries (name : Nat → Ident) (parts : List Value) :
    List (Draft × Draft) → List (Value × Value) → Array Cell → List (Value × Value) × Array Cell
  | [], before, cells => (before.reverse, cells)
  | (k, v) :: rest, before, cells =>
    let (k, cells) := place name parts k cells
    let (v, cells) := place name parts v cells
    placeEntries name parts rest ((k, v) :: before) cells

/-- The items of a value of the caller's own, if it has any. -/
def placeSequence (name : Nat → Ident) (parts : List Value) :
    Option (List Draft) → Array Cell → Option (List Value) × Array Cell
  | none, cells => (none, cells)
  | some items, cells =>
    let (items, cells) := placeItems name parts items [] cells
    (some items, cells)

/-- The entries of a value of the caller's own, if it has any. -/
def placeMapping (name : Nat → Ident) (parts : List Value) :
    Option (List (Draft × Draft)) → Array Cell → Option (List (Value × Value)) × Array Cell
  | none, cells => (none, cells)
  | some entries, cells =>
    let (entries, cells) := placeEntries name parts entries [] cells
    (some entries, cells)

end

end Draft

/-- The value of a draft, and the graph with the draft's containers in it. -/
def Graph.place (g : Graph) (d : Draft) : Value × Graph :=
  let (v, cells) := d.place .stored [] g.cells
  (v, ⟨cells⟩)

end CborGraph
