import CborGraph.Graph

/-!
# Dispatch tables

A table gives every value it knows an entry. Its keys are kinds, types of the caller's
own, and capabilities. The exact key of a value is looked up first; if the table does
not have it, the entries are tried in order, and the first whose capability the value
has is taken. A new entry under an old key takes the old one's place, under a new key
it goes to the end.

Beside its entries a table keeps an index from keys to places, so that an exact key is
found without trying the entries.
-/

namespace CborGraph

/-- What a value can be read as, whatever its type. -/
inductive Capability
  /-- A sequence of items. -/
  | sequence
  /-- A mapping from keys to values. -/
  | mapping
deriving DecidableEq

namespace Capability

/-- The label of a capability in listings. -/
def label : Capability → String
  | sequence => "Sequence"
  | mapping => "Mapping"

/-- The value can be read in this way. -/
def holds (c : Capability) (view : View) (v : Value) : Bool :=
  match c with
  | sequence => (view.sequence? v).isSome
  | mapping => (view.mapping? v).isSome

end Capability

/-- A key of a dispatch table. -/
inductive TypeKey
  /-- A built-in type. -/
  | kind (k : Kind)
  /-- A type of the caller's own, by its name. -/
  | custom (typeName : String)
  /-- Every value with a capability. -/
  | capability (c : Capability)
deriving DecidableEq

/-- The key in listings. -/
def TypeKey.label : TypeKey → String
  | kind k => "Kind(" ++ k.label ++ ")"
  | custom name => "Type(" ++ name ++ ")"
  | capability c => "Capability(" ++ c.label ++ ")"

/-- Keys in a listing. -/
def TypeKey.listing (keys : List TypeKey) : String :=
  "[" ++ String.intercalate ", " (keys.map TypeKey.label) ++ "]"

namespace View

/-- The name of a value's type. -/
def typeName (view : View) (v : Value) : String :=
  match view.kind? v, view.custom? v with
  | some k, _ => k.name
  | none, some c => c.typeName
  | none, none => "unknown"

/-- The exact key of a value. -/
def typeKey (view : View) (v : Value) : TypeKey :=
  match view.kind? v with
  | some k => .kind k
  | none => .custom (view.typeName v)

/-- The key covers the value. -/
def covers (view : View) (v : Value) (key : TypeKey) : Bool :=
  match key with
  | .capability c => c.holds view v
  | key => key == view.typeKey v

end View

/-- A dispatch table. -/
structure Table (α : Type) where
  /-- Keys and what they stand for, in the order in which capabilities are tried. -/
  entries : List (TypeKey × α)
  /-- The place of every key. -/
  index : List (TypeKey × Nat)

namespace Table

variable {α : Type}

/-- The table without entries. -/
def empty : Table α := ⟨[], []⟩

/-- The keys in order. -/
def keys (t : Table α) : List TypeKey := t.entries.map (·.1)

/-- The place of a key. -/
def place? (t : Table α) (key : TypeKey) : Option Nat := t.index.lookup key

/-- The table in which `key` stands for `a`. -/
def insert (t : Table α) (key : TypeKey) (a : α) : Table α :=
  match t.place? key with
  | some i => { t with entries := t.entries.set i (key, a) }
  | none => ⟨t.entries ++ [(key, a)], (key, t.entries.length) :: t.index⟩

/-- The table with entries added one after the other. -/
def insertAll (t : Table α) (entries : List (TypeKey × α)) : Table α :=
  entries.foldl (fun t (key, a) => t.insert key a) t

/-- The entry of a value: the one under its exact key, or else the first that covers
it. -/
def resolve (t : Table α) (view : View) (v : Value) : Option (TypeKey × α) :=
  match t.place? (view.typeKey v) with
  | some i => t.entries[i]?
  | none => t.entries.find? fun (key, _) => view.covers v key

end Table

end CborGraph
