import CborGraph.Encoder

/-!
# The table without entries of the caller

Without entries of the caller every value of a built-in type has the function of its type,
and a value of the caller's own that of a mapping, or else of a sequence:
`resolve_builtinTable`.
-/

namespace CborGraph

/-- The built-in functions by key. -/
def builtinTable : Table EncodeFn := Table.layered Builtin.ops []

theorem Options.table_of_overrides {o : Options} (h : o.overrides = []) : o.table = builtinTable := by
  rw [table, h, builtinTable]

/-- The built-in function for a built-in type. -/
def Builtin.ofKind : Kind → Builtin
  | .null => null
  | .undefined => undefined
  | .bool => bool
  | .integer => integer
  | .bigInt => bigInt
  | .float => float
  | .bytes => bytes
  | .text => text
  | .array => sequence
  | .map => mapping
  | .dateTime => dateTime
  | .naiveDateTime => dateTime
  | .date => date
  | .decimal => decimal
  | .rational => rational
  | .regex => regex
  | .mime => mime
  | .uuid => uuid
  | .tag => tag

/-- The built-in function for a value, with the key it is found under. -/
def View.builtin? (view : View) (v : Value) : Option (TypeKey × Builtin) :=
  match view.kind? v with
  | some k => some (.kind k, Builtin.ofKind k)
  | none =>
    if (view.mapping? v).isSome then some (.capability .mapping, .mapping)
    else if (view.sequence? v).isSome then some (.capability .sequence, .sequence)
    else none

theorem entries_builtinTable :
    builtinTable.entries = Builtin.entries.map fun (key, b) => (key, b.ops) := rfl

/-- **What the table finds**: the function of the built-in type, or else of the first
capability. -/
theorem resolve_builtinTable (view : View) (v : Value) :
    builtinTable.resolve view v = (view.builtin? v).map fun (key, b) => (key, b.ops) := by
  cases hk : view.kind? v with
  | some k =>
    have hkey : view.typeKey v = .kind k := by rw [View.typeKey, hk]
    rw [Table.resolve, hkey, View.builtin?, hk]
    cases k <;> rfl
  | none =>
    have hkey : view.typeKey v = .custom (view.typeName v) := by rw [View.typeKey, hk]
    have hkind : ∀ k, view.covers v (.kind k) = false := by
      intro k
      rw [View.covers, hkey]
      · rfl
      · intro c
        exact TypeKey.noConfusion
    rw [Table.resolve, hkey, View.builtin?, hk]
    simp only [show builtinTable.place? (.custom (view.typeName v)) = none from rfl,
      entries_builtinTable, Builtin.entries, List.map_cons, List.map_nil, List.find?_cons, hkind]
    simp only [View.covers, Capability.holds]
    cases (view.mapping? v).isSome <;> cases (view.sequence? v).isSome <;> rfl

end CborGraph
