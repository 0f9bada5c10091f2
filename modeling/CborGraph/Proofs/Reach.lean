import CborGraph.Proofs.Sharing
import Mathlib.Algebra.BigOperators.Group.Finset.Basic
import Mathlib.Data.Finset.Union

/-!
# Computing what can be reached

`Graph.reachable` are the containers that can be reached from a value and are not empty. They
are found by rounds, each of which goes one container further, and there are no more rounds
than containers: `Graph.mem_reachable_iff`.
-/

namespace CborGraph

/-! ### One step -/

/-- The container under the tags. -/
def Value.target? : Value → Option Ident
  | .tag _ v => v.target?
  | .container id => some id
  | _ => none

namespace View

variable {view : View} {v : Value} {id jd : Ident}

theorem Reaches.of_target (h : v.target? = some id) : view.Reaches v id := by
  induction v with
  | tag number v ih => exact .tag (ih h)
  | container jd =>
    cases h
    exact .here
  | _ => cases h

/-- From a container that can be reached the values in it lead further. -/
theorem Reaches.trans (h : view.Reaches v id) {c : Contents} (hc : view.contents? id = some c)
    {u : Value} (hu : u ∈ c.values) (hr : view.Reaches u jd) : view.Reaches v jd := by
  induction h with
  | here => exact .inside hc hu hr
  | tag _ ih => exact .tag (ih hc)
  | inside hd hw _ ih => exact .inside hd hw (ih hc)

/-- The values in a container. -/
def inside (view : View) (id : Ident) : List Value := ((view.contents? id).map Contents.values).getD []

theorem mem_inside_iff : v ∈ view.inside id ↔ ∃ c, view.contents? id = some c ∧ v ∈ c.values := by
  unfold inside
  cases view.contents? id <;> simp

theorem nonempty_iff : view.Nonempty id ↔ view.inside id ≠ [] := by
  unfold Nonempty inside
  cases view.contents? id with
  | none => simp
  | some c => simp [c.values_eq_nil_iff]

instance (id : Ident) : Decidable (view.Nonempty id) := decidable_of_iff' _ nonempty_iff

/-- The containers under the tags of values, without the empty ones. -/
def targets (view : View) (vs : List Value) : Finset Ident :=
  (vs.filterMap Value.target?).toFinset.filter fun id => view.Nonempty id

theorem mem_targets_iff {vs : List Value} :
    id ∈ view.targets vs ↔ (∃ v ∈ vs, v.target? = some id) ∧ view.Nonempty id := by
  simp [targets]

theorem mem_targets_singleton_iff : id ∈ view.targets [v] ↔ v.target? = some id ∧ view.Nonempty id := by
  simp [mem_targets_iff]

/-- What a value in a container leads to is under the values in it. -/
theorem targets_subset_inside {c : Contents} (hc : view.contents? id = some c) (hv : v ∈ c.values) :
    view.targets [v] ⊆ view.targets (view.inside id) := by
  intro jd hjd
  obtain ⟨htarget, hne⟩ := mem_targets_singleton_iff.mp hjd
  exact mem_targets_iff.mpr ⟨⟨v, mem_inside_iff.mpr ⟨c, hc, hv⟩, htarget⟩, hne⟩

end View

/-! ### Rounds -/

namespace Graph

variable {g : Graph} {v : Value} {id : Ident}

/-- One round: the containers and what is in them. -/
def spread (g : Graph) (ids : Finset Ident) : Finset Ident :=
  ids ∪ ids.biUnion fun id => g.view.targets (g.view.inside id)

/-- The containers that a number of rounds leads to. -/
def reachableIn (g : Graph) (v : Value) (rounds : Nat) : Finset Ident :=
  g.spread^[rounds] (g.view.targets [v])

/-- The containers that can be reached from a value and are not empty. -/
def reachable (g : Graph) (v : Value) : Finset Ident := g.reachableIn v g.cells.size

theorem reachableIn_succ (rounds : Nat) :
    g.reachableIn v (rounds + 1) = g.spread (g.reachableIn v rounds) :=
  Function.iterate_succ_apply' ..

theorem subset_spread (ids : Finset Ident) : ids ⊆ g.spread ids := Finset.subset_union_left

theorem mem_spread_of_mem {ids : Finset Ident} {jd : Ident} (hid : id ∈ ids)
    (hjd : jd ∈ g.view.targets (g.view.inside id)) : jd ∈ g.spread ids :=
  Finset.mem_union_right _ (Finset.mem_biUnion.mpr ⟨id, hid, hjd⟩)

/-- What a round leads to can be reached. -/
theorem reaches_of_mem_reachableIn {rounds : Nat} (h : id ∈ g.reachableIn v rounds) :
    g.view.Reaches v id ∧ g.view.Nonempty id := by
  induction rounds generalizing id with
  | zero =>
    obtain ⟨htarget, hne⟩ := View.mem_targets_singleton_iff.mp h
    exact ⟨.of_target htarget, hne⟩
  | succ rounds ih =>
    rw [reachableIn_succ, spread, Finset.mem_union, Finset.mem_biUnion] at h
    rcases h with h | ⟨jd, hjd, h⟩
    · exact ih h
    · obtain ⟨⟨u, hu, htarget⟩, hne⟩ := View.mem_targets_iff.mp h
      obtain ⟨c, hc, hu⟩ := View.mem_inside_iff.mp hu
      exact ⟨(ih hjd).1.trans hc hu (.of_target htarget), hne⟩

/-- There are no more containers to be reached than there are. -/
theorem card_reachableIn_le (rounds : Nat) : (g.reachableIn v rounds).card ≤ g.cells.size := by
  have hsub : g.reachableIn v rounds ⊆ (Finset.range g.cells.size).image Ident.stored := by
    intro id hid
    obtain ⟨c, hc, h0⟩ := (reaches_of_mem_reachableIn hid).2
    obtain ⟨i, hi, rfl⟩ := g.exists_stored hc h0
    exact Finset.mem_image_of_mem _ (Finset.mem_range.mpr hi)
  calc (g.reachableIn v rounds).card
      ≤ ((Finset.range g.cells.size).image Ident.stored).card := Finset.card_le_card hsub
    _ ≤ g.cells.size := Finset.card_image_le.trans_eq (Finset.card_range _)

/-- **One more round leads no further.** Until then each round finds a container. -/
theorem spread_reachable (g : Graph) (v : Value) : g.spread (g.reachable v) = g.reachable v := by
  have hstep : ∀ rounds, g.reachableIn v rounds ⊆ g.reachableIn v (rounds + 1) := by
    intro rounds
    rw [reachableIn_succ]
    exact subset_spread _
  have heq : ∀ rounds, (g.reachableIn v rounds).card = (g.reachableIn v (rounds + 1)).card →
      g.reachableIn v rounds = g.reachableIn v (rounds + 1) := fun rounds h =>
    Finset.eq_of_subset_of_card_le (hstep rounds) h.ge
  have hstable : ∀ rounds, (g.reachableIn v rounds).card = (g.reachableIn v (rounds + 1)).card →
      (g.reachableIn v (rounds + 1)).card = (g.reachableIn v (rounds + 2)).card := by
    intro rounds h
    have hnext := congrArg (fun ids => (g.spread ids).card) (heq rounds h)
    simpa only [← reachableIn_succ] using hnext
  have hcard := Nat.stabilises_of_monotone
    (monotone_nat_of_le_succ fun rounds => Finset.card_le_card (hstep rounds))
    card_reachableIn_le hstable (Nat.le_succ g.cells.size)
  rw [reachable, ← reachableIn_succ]
  exact (heq _ hcard.symm).symm

/-- What is in a container that can be reached can be reached. -/
theorem targets_inside_subset (hid : id ∈ g.reachable v) :
    g.view.targets (g.view.inside id) ⊆ g.reachable v := by
  intro jd hjd
  rw [← g.spread_reachable v]
  exact mem_spread_of_mem hid hjd

theorem targets_subset_reachable (g : Graph) (v : Value) : g.view.targets [v] ⊆ g.reachable v := by
  have hsub : ∀ rounds, g.view.targets [v] ⊆ g.reachableIn v rounds := by
    intro rounds
    induction rounds with
    | zero => exact Finset.Subset.refl _
    | succ rounds ih =>
      rw [reachableIn_succ]
      exact ih.trans (subset_spread _)
  exact hsub g.cells.size

/-- **What was computed are the containers that can be reached** and are not empty. -/
theorem mem_reachable_iff : id ∈ g.reachable v ↔ g.view.Reaches v id ∧ g.view.Nonempty id := by
  constructor
  · exact reaches_of_mem_reachableIn
  · rintro ⟨hr, hne⟩
    -- Along the path every container has something in it, so none is left out.
    have hpath : ∀ u jd, g.view.Reaches u jd → g.view.targets [u] ⊆ g.reachable v →
        g.view.Nonempty jd → jd ∈ g.reachable v := by
      intro u jd hr
      induction hr with
      | here =>
        intro hsub hne
        exact hsub (View.mem_targets_singleton_iff.mpr ⟨rfl, hne⟩)
      | tag _ ih => exact ih
      | @inside kd c w jd hc hw _ ih =>
        intro hsub
        have hne : g.view.Nonempty kd := ⟨c, hc, Contents.length_ne_zero_of_mem hw⟩
        have hkd : kd ∈ g.reachable v := hsub (View.mem_targets_singleton_iff.mpr ⟨rfl, hne⟩)
        exact ih ((View.targets_subset_inside hc hw).trans (targets_inside_subset hkd))
    exact hpath v id hr (g.targets_subset_reachable v) hne

end Graph

end CborGraph
