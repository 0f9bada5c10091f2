import CborGraph.Proofs.Walk
import Mathlib.Data.List.Perm.Subperm

/-!
# How deep walks go

No container is entered while it is open, and a graph has only so many containers, so every
graph has a walk, and it is no deeper than `Graph.depth` and the tags on the values allow:
`exists_walks`. By `Walks.unique` the walk is the only one.

`Tracked` is what holds at every position of a walk. With sharing on the mark of a container
that is open is its place among those that are open, counted from the outermost.
-/

namespace CborGraph

/-! ### Containers of a graph -/

theorem Graph.exists_cell {g : Graph} {id : Ident} {c : Contents} (h : g.view.contents? id = some c)
    (h0 : c.length ≠ 0) :
    ∃ i cell, id = .stored i ∧ g.cells[i]? = some cell ∧ cell.contents? = some c := by
  have hempty : (Cell.array []).contents? = some c → False := by
    intro he
    cases he
    exact h0 rfl
  cases id with
  | temporary n => exact absurd h hempty
  | stored i =>
    have hcell : g.view.cell (.stored i) = (g.cells[i]?).getD (.array []) := rfl
    rw [View.contents?, hcell] at h
    cases hi : g.cells[i]? with
    | none =>
      rw [hi] at h
      exact absurd h hempty
    | some cell =>
      rw [hi] at h
      exact ⟨i, cell, rfl, hi, h⟩

/-- What is in a container is in a cell of the graph. -/
theorem Graph.exists_cell_of_mem {g : Graph} {id : Ident} {c : Contents}
    (h : g.view.contents? id = some c) {v : Value} (hv : v ∈ c.values) :
    ∃ cell ∈ g.cells, v ∈ cell.values := by
  obtain ⟨i, cell, _, hi, hcell⟩ := g.exists_cell h (Contents.length_ne_zero_of_mem hv)
  exact ⟨cell, Array.mem_of_getElem? hi, Cell.mem_values_of_contents hcell hv⟩

/-- A container that is not empty is in the graph. -/
theorem Graph.exists_stored {g : Graph} {id : Ident} {c : Contents} (h : g.view.contents? id = some c)
    (h0 : c.length ≠ 0) : ∃ i, i < g.cells.size ∧ id = .stored i := by
  obtain ⟨i, cell, rfl, hi, _⟩ := g.exists_cell h h0
  exact ⟨i, (Array.getElem?_eq_some_iff.mp hi).1, rfl⟩

/-! ### What holds at every position -/

/-- What holds of the containers that are open and the marks that were given. -/
structure Tracked (g : Graph) (sharing : Bool) (opened : List Ident) (marks : Marks) : Prop where
  nodup : opened.Nodup
  stored : ∀ id ∈ opened, ∃ i, i < g.cells.size ∧ id = .stored i
  marked : sharing = true →
    ∀ pre id rest, opened = pre ++ id :: rest → marks.lookup id = some rest.length
  index_le : ∀ id index, marks.lookup id = some index → index ≤ g.cells.size

namespace Tracked

variable {g : Graph} {sharing : Bool} {opened : List Ident} {marks : Marks} {id : Ident}

theorem nil (g : Graph) (sharing : Bool) : Tracked g sharing [] [] where
  nodup := List.nodup_nil
  stored id h := absurd h List.not_mem_nil
  marked _ pre id rest h := by simp at h
  index_le id index h := by cases h

/-- No more containers are open than there are. -/
theorem length_le (h : Tracked g sharing opened marks) : opened.length ≤ g.cells.size := by
  have hsub : opened ⊆ (List.range g.cells.size).map Ident.stored := by
    intro id hid
    obtain ⟨i, hi, rfl⟩ := h.stored id hid
    exact List.mem_map.mpr ⟨i, List.mem_range.mpr hi, rfl⟩
  have := (List.Nodup.subperm h.nodup hsub).length_le
  rwa [List.length_map, List.length_range] at this

theorem lookup_of_mem (h : Tracked g true opened marks) (hid : id ∈ opened) :
    ∃ index, marks.lookup id = some index := by
  obtain ⟨pre, rest, hsplit⟩ := List.append_of_mem hid
  exact ⟨rest.length, h.marked rfl pre id rest hsplit⟩

/-- A container that may be entered is not open. -/
theorem not_mem_of_enters (h : Tracked g sharing opened marks) (he : Enters sharing opened marks id) :
    id ∉ opened := by
  cases sharing with
  | false => exact he
  | true =>
    intro hid
    obtain ⟨index, hm⟩ := h.lookup_of_mem hid
    rw [Enters, if_pos rfl, hm] at he
    cases he

/-- What holds outside a container holds inside. -/
theorem inside (h : Tracked g sharing opened marks) {c : Contents}
    (hc : g.view.contents? id = some c) (h0 : c.length ≠ 0) (he : Enters sharing opened marks id) :
    Tracked g sharing (id :: opened) (marksInside sharing opened marks id) where
  nodup := List.nodup_cons.mpr ⟨h.not_mem_of_enters he, h.nodup⟩
  stored jd hj := by
    rcases List.mem_cons.mp hj with rfl | hj
    · exact g.exists_stored hc h0
    · exact h.stored jd hj
  marked hon pre jd rest hsplit := by
    cases pre with
    | nil =>
      obtain ⟨rfl, rfl⟩ := List.cons.inj hsplit
      rw [marksInside, if_pos hon, List.lookup_cons_self]
    | cons kd pre =>
      obtain ⟨rfl, hopened⟩ := List.cons.inj hsplit
      exact lookup_marksInside he (h.marked hon pre jd rest hopened)
  index_le jd index hj := by
    rw [marksInside] at hj
    split at hj
    · rw [List.lookup_cons] at hj
      split at hj
      · cases hj
        exact h.length_le
      · exact h.index_le jd index hj
    · exact h.index_le jd index hj

theorem tail (h : Tracked g sharing (id :: opened) marks) : Tracked g sharing opened marks where
  nodup := (List.nodup_cons.mp h.nodup).2
  stored jd hj := h.stored jd (List.mem_cons_of_mem _ hj)
  marked hon pre jd rest hsplit := h.marked hon (id :: pre) jd rest (by rw [hsplit, List.cons_append])
  index_le := h.index_le

end Tracked

/-- **What holds at the start of a walk holds at the end.** -/
theorem Walks.tracked {g : Graph} {settings : Settings} {sharing : Bool} {opened : List Ident}
    {marks marks' : Marks} {vs : List Value} {w : Walk}
    (hw : Walks settings g.view sharing opened marks vs w marks')
    (h : Tracked g sharing opened marks) : Tracked g sharing opened marks' := by
  induction hw with
  | done => exact h
  | scalar _ _ ih => exact ih h
  | refused _ _ ih => exact ih h
  | tag _ _ ihp ih => exact ih (ihp h)
  | empty _ _ _ ih => exact ih h
  | again _ _ _ _ _ ih => exact ih h
  | cyclic _ _ _ _ _ ih => exact ih h
  | entered hc h0 hnew _ _ ihb ih => exact ih (ihb (h.inside hc h0 hnew)).tail

/-! ### The nesting that is left -/

/-- The most tags on a value in the container. -/
def Cell.tagDepth (c : Cell) : Nat := (c.values.map Value.tagDepth).foldl max 0

theorem le_foldl_max {l : List Nat} {n x : Nat} (h : x ≤ n ∨ x ∈ l) : x ≤ l.foldl max n := by
  induction l generalizing n with
  | nil => exact h.resolve_right List.not_mem_nil
  | cons m l ih =>
    refine ih ?_
    rcases h with h | h
    · exact .inl (le_trans h (le_max_left n m))
    · rcases List.mem_cons.mp h with rfl | h
      · exact .inl (le_max_right n x)
      · exact .inr h

theorem Cell.tagDepth_le {c : Cell} {v : Value} (h : v ∈ c.values) : v.tagDepth ≤ c.tagDepth :=
  le_foldl_max (.inr (List.mem_map_of_mem h))

/-- The nesting that containers allow that are not open, numbered from `start` on. -/
def Cell.nesting (opened : List Ident) : Nat → List Cell → Nat
  | _, [] => 0
  | start, c :: cs =>
    (if .stored start ∈ opened then 0 else c.tagDepth + 1) + Cell.nesting opened (start + 1) cs

namespace Cell

theorem nesting_cons_le (opened : List Ident) (id : Ident) (start : Nat) (cs : List Cell) :
    nesting (id :: opened) start cs ≤ nesting opened start cs := by
  induction cs generalizing start with
  | nil => exact le_rfl
  | cons c cs ih =>
    refine Nat.add_le_add ?_ (ih (start + 1))
    by_cases h : .stored start ∈ opened
    · rw [if_pos (List.mem_cons_of_mem _ h)]
      exact Nat.zero_le _
    · rw [if_neg h]
      split
      · exact Nat.zero_le _
      · exact le_rfl

/-- Opening a container takes from the nesting what it allows. -/
theorem nesting_cons {opened : List Ident} {start i : Nat} {cs : List Cell} {c : Cell}
    (hc : cs[i]? = some c) (hid : .stored (start + i) ∉ opened) :
    nesting (.stored (start + i) :: opened) start cs + (c.tagDepth + 1) ≤ nesting opened start cs := by
  induction cs generalizing start i with
  | nil => cases hc
  | cons d cs ih =>
    cases i with
    | zero =>
      cases hc
      have hle := nesting_cons_le opened (.stored start) (start + 1) cs
      rw [Nat.add_zero] at hid
      rw [nesting, nesting, Nat.add_zero, if_pos List.mem_cons_self, if_neg hid]
      omega
    | succ i =>
      have hstart : start + (i + 1) = start + 1 + i := by omega
      rw [hstart] at hid ⊢
      have hne : Ident.stored start ∈ Ident.stored (start + 1 + i) :: opened ↔
          Ident.stored start ∈ opened := by
        rw [List.mem_cons, or_iff_right]
        intro h
        have := Ident.stored.inj h
        omega
      have := ih hc hid
      rw [nesting, nesting, if_congr hne rfl rfl]
      omega

theorem nesting_nil (start n : Nat) (cs : List Cell) :
    n + nesting [] start cs = cs.foldl (fun n c => n + 1 + c.tagDepth) n := by
  induction cs generalizing start n with
  | nil => rfl
  | cons c cs ih =>
    rw [nesting, if_neg List.not_mem_nil, List.foldl_cons, ← ih (start + 1)]
    omega

end Cell

namespace Graph

/-- The nesting that the containers allow that are not open. -/
def nesting (g : Graph) (opened : List Ident) : Nat := Cell.nesting opened 0 g.cells.toList

theorem nesting_nil (g : Graph) : g.nesting [] = g.depth := by
  have := Cell.nesting_nil 0 0 g.cells.toList
  rw [Nat.zero_add, Array.foldl_toList] at this
  exact this

/-- **Opening a container** leaves less nesting, for its values as well. -/
theorem nesting_cons {g : Graph} {opened : List Ident} {id : Ident} {c : Contents}
    (hc : g.view.contents? id = some c) (h0 : c.length ≠ 0) (hid : id ∉ opened) :
    ∃ d, (∀ v ∈ c.values, v.tagDepth ≤ d) ∧ g.nesting (id :: opened) + (d + 1) ≤ g.nesting opened := by
  obtain ⟨i, cell, rfl, hi, hcell⟩ := g.exists_cell hc h0
  refine ⟨cell.tagDepth, ?_, ?_⟩
  · intro v hv
    exact Cell.tagDepth_le (Cell.mem_values_of_contents hcell hv)
  · have hi' : g.cells.toList[i]? = some cell := by rwa [Array.getElem?_toList]
    have hid' : .stored (0 + i) ∉ opened := by rwa [Nat.zero_add]
    have := Cell.nesting_cons hi' hid'
    rwa [Nat.zero_add] at this

end Graph

/-! ### There is a walk -/

/-- How many tags and values there are. -/
def valuesSize (vs : List Value) : Nat := (vs.map fun v => v.tagDepth + 1).sum

theorem valuesSize_cons (v : Value) (vs : List Value) :
    valuesSize (v :: vs) = v.tagDepth + 1 + valuesSize vs := by
  rw [valuesSize, List.map_cons, List.sum_cons]
  rfl

/-- A value is refused, or is a scalar, or is read as a tag or as a container. -/
theorem value_cases (settings : Settings) (view : View) (v : Value) :
    (∃ e, view.refusal? settings v = some e) ∨ (∃ item, settings.item? v = some item) ∨
      (∃ number u, v = .tag number u) ∨ ∃ id c, v = .container id ∧ view.contents? id = some c := by
  cases v with
  | tag number u => exact .inr (.inr (.inl ⟨number, u, rfl⟩))
  | container id =>
    cases hc : view.contents? id with
    | none => exact .inl ⟨_, by rw [View.refusal?, if_pos hc]⟩
    | some c => exact .inr (.inr (.inr ⟨id, c, rfl, hc⟩))
  | naiveDateTime t =>
    cases ht : settings.timezone.bind t.at? with
    | none => exact .inl ⟨_, by rw [View.refusal?, if_pos ht]⟩
    | some u => exact .inr (.inl ⟨_, by rw [Settings.item?, ht, Option.map_some]⟩)
  | _ => exact .inr (.inl ⟨_, rfl⟩)

/-- **Every graph has a walk**, which is no deeper than the nesting that is left. The outer
induction is on the nesting that is left, the inner one on the values. -/
theorem exists_walks (settings : Settings) {g : Graph} {sharing : Bool} {opened : List Ident}
    {marks : Marks} (h : Tracked g sharing opened marks) (vs : List Value) {d : Nat}
    (hd : ∀ v ∈ vs, v.tagDepth ≤ d) :
    ∃ w marks', Walks settings g.view sharing opened marks vs w marks' ∧
      w.height ≤ d + g.nesting opened + scalarDepth := by
  induction hn : g.nesting opened using Nat.strong_induction_on generalizing opened marks vs d with
  | _ n ihn =>
  induction hm : valuesSize vs using Nat.strong_induction_on generalizing marks vs d with
  | _ m ihm =>
  subst hn hm
  cases vs with
  | nil => exact ⟨.done, marks, .done, Nat.zero_le _⟩
  | cons v vs =>
    have hv : v.tagDepth ≤ d := hd v List.mem_cons_self
    have hvs : ∀ u ∈ vs, u.tagDepth ≤ d := fun u hu => hd u (List.mem_cons_of_mem _ hu)
    have hlt : valuesSize vs < valuesSize (v :: vs) := by
      rw [valuesSize_cons]
      omega
    have hone : 1 ≤ d + g.nesting opened + scalarDepth := Nat.le_add_left 1 _
    have hafter : ∀ {marks₁}, Tracked g sharing opened marks₁ → ∃ w marks',
        Walks settings g.view sharing opened marks₁ vs w marks' ∧
          w.height ≤ d + g.nesting opened + scalarDepth :=
      fun h₁ => ihm _ hlt h₁ vs hvs rfl
    rcases value_cases settings g.view v with ⟨e, he⟩ | ⟨item, hitem⟩ | ⟨number, u, rfl⟩ | ⟨id, c, rfl, hc⟩
    · obtain ⟨rest, marks', hrest, hh⟩ := hafter h
      exact ⟨_, _, .refused he hrest, max_le hone hh⟩
    · obtain ⟨rest, marks', hrest, hh⟩ := hafter h
      exact ⟨_, _, .scalar hitem hrest, max_le (Nat.le_add_left _ _) hh⟩
    · rw [Value.tagDepth] at hv
      have hsize : valuesSize [u] < valuesSize (Value.tag number u :: vs) := by
        rw [valuesSize_cons, valuesSize_cons, Value.tagDepth, valuesSize, List.map_nil, List.sum_nil]
        omega
      have hu : ∀ x ∈ [u], x.tagDepth ≤ d - 1 := by
        intro x hx
        rw [List.mem_singleton.mp hx]
        omega
      obtain ⟨payload, marks₁, hpayload, hh₁⟩ := ihm _ hsize h [u] hu rfl
      obtain ⟨rest, marks₂, hrest, hh₂⟩ := hafter (hpayload.tracked h)
      exact ⟨_, _, .tag hpayload hrest, max_le (by omega) hh₂⟩
    · by_cases h0 : c.length = 0
      · obtain ⟨rest, marks', hrest, hh⟩ := hafter h
        exact ⟨_, _, .empty hc h0 hrest, max_le hone hh⟩
      by_cases he : Enters sharing opened marks id
      · have hin := h.inside hc h0 he
        obtain ⟨d', hd', hless⟩ := g.nesting_cons hc h0 (h.not_mem_of_enters he)
        obtain ⟨body, marks₁, hbody, hh₁⟩ := ihn _ (by omega) hin c.values hd' rfl
        obtain ⟨rest, marks₂, hrest, hh₂⟩ := hafter (hbody.tracked hin).tail
        exact ⟨_, _, .entered hc h0 he hbody hrest, max_le (by omega) hh₂⟩
      · obtain ⟨rest, marks', hrest, hh⟩ := hafter h
        cases sharing with
        | false =>
          rw [Enters, if_neg Bool.false_ne_true, not_not] at he
          exact ⟨_, _, .cyclic hc h0 rfl he hrest, max_le hone hh⟩
        | true =>
          rw [Enters, if_pos rfl] at he
          obtain ⟨index, hm⟩ := Option.ne_none_iff_exists'.mp he
          exact ⟨_, _, .again hc h0 rfl hm hrest, max_le hone hh⟩

/-- **The walk of a document**, which the limit of nesting allows. -/
theorem Graph.exists_walk (g : Graph) (settings : Settings) (sharing : Bool) (v : Value) :
    ∃ w marks, Walks settings g.view sharing [] [] [v] w marks ∧
      w.height ≤ Encoder.nestingLimit g + v.tagDepth := by
  obtain ⟨w, marks, hw, hh⟩ := exists_walks settings (Tracked.nil g sharing) [v]
    (d := v.tagDepth) (fun u hu => by rw [List.mem_singleton.mp hu])
  refine ⟨w, marks, hw, le_trans hh ?_⟩
  rw [g.nesting_nil, Encoder.nestingLimit, scalarDepth, Encoder.allowance]
  omega

end CborGraph
