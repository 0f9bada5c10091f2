import CborGraph.Proofs.Frame
import CborGraph.Proofs.ScalarRun

/-!
# Calls from any state

What the built-in functions do from a state of which nothing is known, with a sink that may
refuse. A container that can be read is encoded by one operation, `encodeValue_contents`, a tag
by a head and a call, and a scalar by operations that are `Op.Simple`: they write, or fail, or
call for a scalar of lower rank, or suspend sharing and call for a new array of two such scalars.
-/

namespace CborGraph

variable {settings : Settings} {view : View} {limit : Nat}

/-! ### Containers and tags -/

/-- A container that can be read is encoded by the operation of its contents. -/
theorem encodeValue_contents (settings : Settings) (limit : Nat) {id : Ident} {c : Contents}
    (hc : view.contents? id = some c) (s : State) :
    ∃ key found, encodeValue builtinTable settings (limit + 1) view (.container id) s =
      let r := Op.run (encodeValue builtinTable settings limit) view
        (.container (.existing id) c.major c.length (c.values.map Op.value))
        (s.beginDocument.descend key found)
      (r.1, r.2.ascend) := by
  obtain ⟨found, b, hb, hops⟩ := exists_builtin_of_contents settings hc
  have hresolve : builtinTable.resolve view (.container id) = some (found, b.ops) := by
    rw [resolve_builtinTable, hb, Option.map_some]
  refine ⟨view.typeKey (.container id), found, ?_⟩
  rw [encodeValue_of_some hresolve, hops]
  simp only [runAll_singleton]

/-- A container that cannot be read is refused. -/
theorem encodeValue_unreadable (settings : Settings) (limit : Nat) {id : Ident}
    (hc : view.contents? id = none) (s : State) :
    encodeValue builtinTable settings (limit + 1) view (.container id) s =
      (.failed (.unsupportedType (view.typeName (.container id))),
        s.beginDocument.record (.dispatched (view.typeKey (.container id)) none)) := by
  have hresolve : builtinTable.resolve view (.container id) = none := by
    rw [resolve_builtinTable, builtin?_of_contents hc, Option.map_none]
  rw [encodeValue_of_resolve_none hresolve]

/-- A tag is written, and then what it stands for is encoded one call deeper. -/
theorem encodeValue_tagged (settings : Settings) (limit : Nat) (number : UInt64) (v : Value)
    (s : State) :
    encodeValue builtinTable settings (limit + 1) view (.tag number v) s =
      let r := Op.runAll (encodeValue builtinTable settings limit) view [.head .tag number, .value v]
        (s.beginDocument.descend (.kind .tag) (.kind .tag))
      (r.1, r.2.ascend) := by
  have hresolve : builtinTable.resolve view (.tag number v) = some (.kind .tag, Builtin.tag.ops) := by
    rw [resolve_builtinTable]
    rfl
  rw [encodeValue_of_some hresolve]
  rfl

/-! ### Scalars -/

/-- How deep the calls for a scalar are nested; 0 for a tag and for a reference. -/
def Value.rank : Value → Nat
  | .tag _ _ => 0
  | .container _ => 0
  | .integer _ => 2
  | .bigInt _ => 2
  | .regex _ => 2
  | .mime _ => 2
  | .uuid _ => 2
  | .dateTime _ => 3
  | .naiveDateTime _ => 3
  | .date _ => 3
  | .decimal _ => 4
  | .rational _ => 4
  | _ => 1

theorem Value.rank_le (v : Value) : v.rank ≤ scalarDepth := by
  cases v <;> simp [rank, scalarDepth]

/-- What the function of a scalar does; its calls are nested no deeper than `n`. -/
inductive Op.Simple (n : Nat) : Op → Prop
  /-- It writes. -/
  | write (bs : Bytes) : Simple n (.write bs)
  /-- It fails. -/
  | fail (e : EncodeError) : Simple n (.fail e)
  /-- It encodes a scalar. -/
  | value {v : Value} (hv : v.rank ≠ 0) (hn : v.rank ≤ n) : Simple n (.value v)
  /-- It encodes a new array of two scalars while sharing is suspended. -/
  | pair {a b : Value} (ha : a.rank ≠ 0) (hb : b.rank ≠ 0) (hna : a.rank + 1 ≤ n)
      (hnb : b.rank + 1 ≤ n) : Simple n (.suspended [.encode (.array [.known a, .known b])])

namespace Op

theorem simple_semantic {n : Nat} (number : UInt64) {v : Value} (hv : v.rank ≠ 0) (hn : v.rank ≤ n) :
    ∀ op ∈ semantic number (.known v) false, op.Simple n := by
  intro op hop
  simp only [semantic, List.mem_cons, List.not_mem_nil, or_false] at hop
  rcases hop with rfl | rfl
  · exact .write _
  · exact .value hv hn

theorem simple_pair {n : Nat} (number : UInt64) {a b : Value} (ha : a.rank ≠ 0) (hb : b.rank ≠ 0)
    (hna : a.rank + 1 ≤ n) (hnb : b.rank + 1 ≤ n) :
    ∀ op ∈ semantic number (.array [.known a, .known b]) true, op.Simple n := by
  intro op hop
  simp only [semantic, List.mem_cons, List.not_mem_nil, or_false] at hop
  rcases hop with rfl | rfl
  · exact .write _
  · exact .pair ha hb hna hnb

theorem simple_writes {n : Nat} (bss : List Bytes) : ∀ op ∈ bss.map write, op.Simple n := by
  intro op hop
  obtain ⟨bs, -, rfl⟩ := List.mem_map.mp hop
  exact .write bs

theorem simple_integer (i : Int) : ∀ op ∈ integer i, op.Simple 1 := by
  simp only [integer]
  rw [← BigInt.argumentOf]
  split
  · exact simple_writes [_]
  · exact simple_semantic _ (Nat.succ_ne_zero _) le_rfl

theorem simple_dateTime (settings : Settings) (t : DateTime) :
    ∀ op ∈ dateTime settings t, op.Simple 2 := by
  have hrank : (timestamp t).rank ≠ 0 ∧ (timestamp t).rank ≤ 2 := by
    unfold timestamp
    split <;> simp [Value.rank]
  unfold dateTime
  split
  · exact simple_semantic _ hrank.1 hrank.2
  · exact simple_semantic _ (Nat.succ_ne_zero _) (Nat.le_succ 1)

theorem simple_naiveDateTime (settings : Settings) (t : NaiveDateTime) :
    ∀ op ∈ naiveDateTime settings t, op.Simple 2 := by
  unfold naiveDateTime
  split
  · exact simple_dateTime settings _
  · intro op hop
    rw [List.mem_singleton.mp hop]
    exact .fail _

theorem simple_decimal (d : Decimal) : ∀ op ∈ decimal d, op.Simple 3 := by
  cases d with
  | finite mantissa exponent =>
    exact simple_pair _ (Nat.succ_ne_zero _) (Nat.succ_ne_zero _) le_rfl le_rfl
  | nan => exact simple_writes [_]
  | infinity => exact simple_writes [_]
  | negInfinity => exact simple_writes [_]

end Op

/-- **The function of a scalar is simple**, and its calls are nested less deep. -/
theorem Value.exists_simple (settings : Settings) (view : View) {v : Value} (hv : v.rank ≠ 0) :
    ∃ key f, builtinTable.resolve view v = some (key, f) ∧
      ∀ op ∈ f settings view v, op.Simple (v.rank - 1) := by
  have hfound : ∀ {key : TypeKey} {b : Builtin}, view.builtin? v = some (key, b) →
      (∀ op ∈ b.ops settings view v, op.Simple (v.rank - 1)) →
      ∃ key f, builtinTable.resolve view v = some (key, f) ∧
        ∀ op ∈ f settings view v, op.Simple (v.rank - 1) := by
    intro key b hb hops
    exact ⟨key, b.ops, by rw [resolve_builtinTable, hb, Option.map_some], hops⟩
  cases v with
  | null => exact hfound (b := .null) rfl (Op.simple_writes [_])
  | undefined => exact hfound (b := .undefined) rfl (Op.simple_writes [_])
  | bool x => exact hfound (b := .bool) rfl (Op.simple_writes [_])
  | float x => exact hfound (b := .float) rfl (Op.simple_writes [_])
  | bytes bs => exact hfound (b := .bytes) rfl (Op.simple_writes [_, _])
  | text s => exact hfound (b := .text) rfl (Op.simple_writes [_, _])
  | integer i => exact hfound (b := .integer) rfl (Op.simple_integer i)
  | bigInt n =>
    refine hfound (b := .bigInt) rfl ?_
    have hops : Builtin.bigInt.ops settings view (.bigInt n) = Op.integer n.toInt := Op.bigInt_eq n
    rw [hops]
    exact Op.simple_integer n.toInt
  | dateTime t => exact hfound (b := .dateTime) rfl (Op.simple_dateTime settings t)
  | naiveDateTime t => exact hfound (b := .dateTime) rfl (Op.simple_naiveDateTime settings t)
  | date d => exact hfound (b := .date) rfl (Op.simple_dateTime settings _)
  | decimal d => exact hfound (b := .decimal) rfl (Op.simple_decimal d)
  | rational r =>
    exact hfound (b := .rational) rfl
      (Op.simple_pair _ (Nat.succ_ne_zero _) (Nat.succ_ne_zero _) le_rfl le_rfl)
  | regex pattern => exact hfound (b := .regex) rfl (Op.simple_semantic _ (Nat.succ_ne_zero _) le_rfl)
  | mime m => exact hfound (b := .mime) rfl (Op.simple_semantic _ (Nat.succ_ne_zero _) le_rfl)
  | uuid u => exact hfound (b := .uuid) rfl (Op.simple_semantic _ (Nat.succ_ne_zero _) le_rfl)
  | tag number v => exact absurd rfl hv
  | container id => exact absurd rfl hv

/-- The new array of two scalars is called for like one of a graph. -/
theorem run_pair (call : View → Value → Run) (view : View) (a b : Value) (s : State) :
    ∃ (seen : View) (id : Ident), seen.contents? id = some (.items [a, b]) ∧
      Op.run call view (.suspended [.encode (.array [.known a, .known b])]) s =
        let r := call seen (.container id) { s with sharing := false, next := s.next + 1 }
        (r.1, { r.2 with sharing := s.sharing }) := by
  refine ⟨view.extend s.next #[.array [a, b]], .temporary s.next, ?_, ?_⟩
  · simp [View.contents?, View.extend, Cell.contents?]
  · rw [Op.run, runAll_singleton]
    rfl

end CborGraph
