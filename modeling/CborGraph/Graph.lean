import CborGraph.Value

/-!
# Graphs

A graph keeps the containers that references lead to. A `View` is all that encoding
knows of one: for every identity, what is in the container. Every view is total, so an
identity that was never given out reads as an empty array, and a graph needs no
condition of being closed.

A value of the caller's own type has a type name, some integers of its own, and perhaps
a view as a sequence or as a mapping; these are its capabilities.
-/

namespace CborGraph

/-- A value of a type of the caller's own. -/
structure Custom where
  /-- The name of the type. -/
  typeName : String
  /-- What the value holds besides other values. -/
  fields : List Int
  /-- The items, if the value can be read as a sequence. -/
  sequence? : Option (List Value)
  /-- The entries, if the value can be read as a mapping. -/
  mapping? : Option (List (Value × Value))
deriving DecidableEq

/-- What is in a container. -/
inductive Cell
  /-- The items of an array. -/
  | array (items : List Value)
  /-- The entries of a map, in order; a key may repeat. -/
  | map (entries : List (Value × Value))
  /-- A value of the caller's own. -/
  | custom (c : Custom)
deriving DecidableEq

namespace Cell

/-- Every value in the container. -/
def values : Cell → List Value
  | array items => items
  | map entries => entries.flatMap fun (k, v) => [k, v]
  | custom c => c.sequence?.getD [] ++ (c.mapping?.getD []).flatMap fun (k, v) => [k, v]

/-- The kind of the container; a value of the caller's own has none. -/
def kind? : Cell → Option Kind
  | array _ => some .array
  | map _ => some .map
  | custom _ => none

/-- The items, if the container can be read as a sequence. -/
def sequence? : Cell → Option (List Value)
  | array items => some items
  | map _ => none
  | custom c => c.sequence?

/-- The entries, if the container can be read as a mapping. -/
def mapping? : Cell → Option (List (Value × Value))
  | array _ => none
  | map entries => some entries
  | custom c => c.mapping?

/-- The length of an array or map. -/
def length? : Cell → Option Nat
  | array items => some items.length
  | map entries => some entries.length
  | custom _ => none

/-! ### Changes

A change that is not meant for a container leaves it as it is. -/

/-- An array with one more item at the end. -/
def push (v : Value) : Cell → Cell
  | array items => array (items ++ [v])
  | c => c

/-- An array with another item at a place that it has. -/
def set (i : Nat) (v : Value) : Cell → Cell
  | array items => array (items.set i v)
  | c => c

/-- A map with one more entry at the end. -/
def put (k v : Value) : Cell → Cell
  | map entries => map (entries ++ [(k, v)])
  | c => c

/-- An array or map without its last item or entry. -/
def pop : Cell → Cell
  | array items => array items.dropLast
  | map entries => map entries.dropLast
  | c => c

/-- An array or map with nothing in it. -/
def clear : Cell → Cell
  | array _ => array []
  | map _ => map []
  | c => c

end Cell

/-! ### Views -/

/-- What is in every container. -/
structure View where
  /-- The container with an identity. -/
  cell : Ident → Cell

namespace View

/-- The view in which the temporary containers numbered from `start` on are `cells`. -/
def extend (view : View) (start : Nat) (cells : Array Cell) : View :=
  if cells.isEmpty then view
  else {
    cell
      | .temporary n =>
        if start ≤ n then (cells[n - start]?).getD (view.cell (.temporary n))
        else view.cell (.temporary n)
      | .stored i => view.cell (.stored i) }

@[simp] theorem extend_empty (view : View) (start : Nat) : view.extend start #[] = view := rfl

@[simp] theorem extend_stored (view : View) (start i : Nat) (cells : Array Cell) :
    (view.extend start cells).cell (.stored i) = view.cell (.stored i) := by
  unfold extend
  split <;> rfl

/-- The container that a value refers to. -/
def cell? (view : View) : Value → Option Cell
  | .container id => some (view.cell id)
  | _ => none

/-- The kind of a value; a value of the caller's own has none. -/
def kind? (view : View) : Value → Option Kind
  | .null => some .null
  | .undefined => some .undefined
  | .bool _ => some .bool
  | .integer _ => some .integer
  | .bigInt _ => some .bigInt
  | .float _ => some .float
  | .bytes _ => some .bytes
  | .text _ => some .text
  | .dateTime _ => some .dateTime
  | .naiveDateTime _ => some .naiveDateTime
  | .date _ => some .date
  | .decimal _ => some .decimal
  | .rational _ => some .rational
  | .regex _ => some .regex
  | .mime _ => some .mime
  | .uuid _ => some .uuid
  | .tag _ _ => some .tag
  | .container id => (view.cell id).kind?

/-- The value of the caller's own that a value is. -/
def custom? (view : View) (v : Value) : Option Custom :=
  match view.cell? v with
  | some (.custom c) => some c
  | _ => none

/-- A reference in a listing, with nothing of the identity behind it. -/
def listing? (view : View) (v : Value) : Option String :=
  (view.cell? v).map fun
    | .array _ => "Array(Shared(#))"
    | .map _ => "Map(Shared(#))"
    | .custom c => "Custom(CustomRef \x7b id: #, type_name: \"" ++ c.typeName ++ "\" \x7d)"

/-- The items of a value that can be read as a sequence. -/
def sequence? (view : View) (v : Value) : Option (List Value) := (view.cell? v).bind Cell.sequence?

/-- The entries of a value that can be read as a mapping. -/
def mapping? (view : View) (v : Value) : Option (List (Value × Value)) :=
  (view.cell? v).bind Cell.mapping?

end View

/-! ### Graphs -/

/-- Containers by their place. -/
structure Graph where
  /-- The containers, in the order in which they were added. -/
  cells : Array Cell

namespace Graph

/-- The graph with no container. -/
def empty : Graph := ⟨#[]⟩

/-- What the graph says is in every container. -/
def view (g : Graph) : View where
  cell
    | .stored i => (g.cells[i]?).getD (.array [])
    | .temporary _ => .array []

/-- A new container, and its identity. -/
def add (g : Graph) (c : Cell) : Ident × Graph := (.stored g.cells.size, ⟨g.cells.push c⟩)

@[simp] theorem view_add (g : Graph) (c : Cell) : (g.add c).2.view.cell (g.add c).1 = c := by
  simp [add, view]

/-- The graph after a change of one container. A container that is not in the graph is
left alone. -/
def update (g : Graph) (id : Ident) (f : Cell → Cell) : Graph :=
  match id with
  | .stored i => ⟨g.cells.modify i f⟩
  | .temporary _ => g

/-- How many levels of nesting the containers and the tags on their values allow, if no
container is entered twice. -/
def depth (g : Graph) : Nat :=
  g.cells.foldl (fun n c => n + 1 + (c.values.map Value.tagDepth).foldl max 0) 0

end Graph

end CborGraph
