import CborGraph.Proofs.BuiltinTable

/-!
# What a table finds

The index of a table gives every key its place, `Table.Indexed`, and does so still when entries are
added. Then what a table finds for a value depends on nothing but which key is chosen among those
that there are, `View.chosen?`, and on what that key stands for, `Table.value?`.

A table has an entry for each capability from the start. So an entry that is added later makes no
difference to a value with another exact key, unless it is laid over the one that was found,
`Table.resolve_insertAll`.
-/

namespace CborGraph

/-! ### Keys -/

/-- The key under which a value is found among these: its exact key, or else the first that covers
it. -/
def View.chosen? (view : View) (v : Value) (keys : List TypeKey) : Option TypeKey :=
  if view.typeKey v ∈ keys then some (view.typeKey v) else keys.find? (view.covers v)

/-- A key that is no capability covers the values whose exact key it is. -/
theorem View.covers_eq_false {view : View} {v : Value} {key : TypeKey} (hne : key ≠ view.typeKey v)
    (hcap : ∀ c, key ≠ .capability c) : view.covers v key = false := by
  cases key with
  | kind k => exact beq_eq_false_iff_ne.mpr hne
  | custom name => exact beq_eq_false_iff_ne.mpr hne
  | capability c => exact absurd rfl (hcap c)

/-- One more key is not chosen if it is neither the exact key nor a capability. -/
theorem View.chosen?_append {view : View} {v : Value} {key : TypeKey} (hne : key ≠ view.typeKey v)
    (hcap : ∀ c, key ≠ .capability c) (keys : List TypeKey) :
    view.chosen? v (keys ++ [key]) = view.chosen? v keys := by
  have hmem : view.typeKey v ∈ keys ++ [key] ↔ view.typeKey v ∈ keys := by simp [hne.symm]
  have hfind : (keys ++ [key]).find? (view.covers v) = keys.find? (view.covers v) := by
    simp [List.find?_append, covers_eq_false hne hcap]
  rw [chosen?, chosen?, hfind]
  simp only [hmem]

/-! ### The index -/

namespace Table

variable {α : Type} {t : Table α} {key k : TypeKey} {a : α} {view : View} {v : Value}

/-- The index gives every key its place, and no other. -/
def Indexed (t : Table α) : Prop := ∀ key i, t.place? key = some i ↔ t.keys[i]? = some key

/-- What a key stands for. -/
def value? (t : Table α) (key : TypeKey) : Option α :=
  (t.place? key).bind fun i => (t.entries[i]?).map (·.2)

theorem indexed_empty : (empty : Table α).Indexed := by
  intro key i
  simp [place?, keys, empty]

/-- An entry under a key that the table has takes the place of the old one. -/
theorem insert_of_place {i : Nat} (hi : t.place? key = some i) :
    t.insert key a = ⟨t.entries.set i (key, a), t.index⟩ := by
  rw [insert, hi]

/-- An entry under a new key goes to the end. -/
theorem insert_of_new (hi : t.place? key = none) :
    t.insert key a = ⟨t.entries ++ [(key, a)], (key, t.entries.length) :: t.index⟩ := by
  rw [insert, hi]

theorem place?_insert : (t.insert key a).place? k =
    if k = key ∧ t.place? key = none then some t.entries.length else t.place? k := by
  cases hi : t.place? key with
  | some i =>
    rw [insert_of_place hi, if_neg (by simp)]
    rfl
  | none =>
    rw [insert_of_new hi, place?, List.lookup_cons]
    by_cases hk : k = key
    · simp [hk]
    · simp [beq_eq_false_iff_ne.mpr hk, hk, place?]

namespace Indexed

variable (h : t.Indexed)

include h

theorem mem_keys_iff : key ∈ t.keys ↔ ∃ i, t.place? key = some i := by
  simp only [List.mem_iff_getElem?, h key]

theorem place?_eq_none_iff : t.place? key = none ↔ key ∉ t.keys := by
  rw [h.mem_keys_iff, not_exists, Option.eq_none_iff_forall_ne_some]

/-- What stands at the place of a key is the entry under it. -/
theorem entry_of_place {i : Nat} (hi : t.place? key = some i) :
    ∃ a, t.entries[i]? = some (key, a) ∧ t.value? key = some a := by
  have hkey := (h key i).mp hi
  rw [keys, List.getElem?_map, Option.map_eq_some_iff] at hkey
  obtain ⟨⟨_, a⟩, hentry, rfl⟩ := hkey
  exact ⟨a, hentry, by simp [value?, hi, hentry]⟩

/-- Every entry is what its key stands for. -/
theorem value?_of_mem (hmem : (key, a) ∈ t.entries) : t.value? key = some a := by
  obtain ⟨i, hi⟩ := List.mem_iff_getElem?.mp hmem
  have hkey : t.keys[i]? = some key := by rw [keys, List.getElem?_map, hi, Option.map_some]
  simp [value?, (h key i).mpr hkey, hi]

theorem place_lt {i : Nat} (hi : t.place? key = some i) : i < t.entries.length := by
  obtain ⟨a, hentry, _⟩ := h.entry_of_place hi
  exact (List.getElem?_eq_some_iff.mp hentry).1

/-! ### Entries that are added -/

/-- A key that the table has keeps its place, and any other goes to the end. -/
theorem keys_insert : (t.insert key a).keys = if key ∈ t.keys then t.keys else t.keys ++ [key] := by
  cases hi : t.place? key with
  | some i =>
    have hset : t.keys.set i key = t.keys := by
      obtain ⟨hlt, hkey⟩ := List.getElem?_eq_some_iff.mp ((h key i).mp hi)
      rw [← hkey, List.set_getElem_self]
    rw [if_pos (h.mem_keys_iff.mpr ⟨i, hi⟩), insert_of_place hi, keys, List.map_set]
    exact hset
  | none =>
    rw [if_neg (h.place?_eq_none_iff.mp hi), insert_of_new hi]
    simp [keys]

/-- **The index gives every key its place** when an entry is added. -/
theorem insert : (t.insert key a).Indexed := by
  intro k j
  rw [place?_insert, h.keys_insert]
  cases hi : t.place? key with
  | some i =>
    rw [if_pos (h.mem_keys_iff.mpr ⟨i, hi⟩), if_neg (by simp)]
    exact h k j
  | none =>
    have hnew := h.place?_eq_none_iff.mp hi
    have hlen : t.entries.length = t.keys.length := by rw [keys, List.length_map]
    rw [if_neg hnew, List.getElem?_append, hlen]
    by_cases hk : k = key
    · subst hk
      rw [if_pos ⟨rfl, rfl⟩, Option.some_inj]
      split
      · next hlt =>
        refine iff_of_false (by omega) fun hj => hnew (List.mem_of_getElem? hj)
      · next hge =>
        simp only [List.getElem?_singleton]
        split
        · next h0 => exact iff_of_true (by omega) rfl
        · next h0 => exact iff_of_false (by omega) (by simp)
    · rw [if_neg fun hc => hk hc.1, h k j]
      split
      · rfl
      · next hge =>
        have hother : ([key] : List TypeKey)[j - t.keys.length]? ≠ some k := fun hj =>
          hk (List.mem_singleton.mp (List.mem_of_getElem? hj))
        rw [List.getElem?_eq_none (Nat.not_lt.mp hge)]
        exact iff_of_false (by simp) hother

/-- An entry that is added is what its key stands for, and other keys stand for what they did. -/
theorem value?_insert : (t.insert key a).value? k = if k = key then some a else t.value? k := by
  rw [value?, place?_insert]
  cases hi : t.place? key with
  | some i =>
    rw [if_neg (by simp), insert_of_place hi]
    split
    · next hk =>
      subst hk
      simp [hi, h.place_lt hi]
    · next hk =>
      cases hj : t.place? k with
      | none => simp [value?, hj]
      | some j =>
        have hne : i ≠ j := by
          rintro rfl
          have hkeys := ((h key i).mp hi).symm.trans ((h k i).mp hj)
          exact hk (Option.some_inj.mp hkeys).symm
        simp [value?, hj, List.getElem?_set_ne hne]
  | none =>
    rw [insert_of_new hi]
    by_cases hk : k = key
    · simp [hk]
    · cases hj : t.place? k with
      | none => simp [value?, hk, hj]
      | some j => simp [value?, hk, hj, List.getElem?_append_left (h.place_lt hj)]

/-! ### Values -/

/-- **What a table finds** is the entry under the key that is chosen for the value. -/
theorem resolve_eq : t.resolve view v =
    (view.chosen? v t.keys).bind fun key => (t.value? key).map fun a => (key, a) := by
  rw [resolve, View.chosen?]
  cases hi : t.place? (view.typeKey v) with
  | some i =>
    obtain ⟨a, hentry, hvalue⟩ := h.entry_of_place hi
    rw [if_pos (h.mem_keys_iff.mpr ⟨i, hi⟩)]
    simp [hentry, hvalue]
  | none =>
    rw [if_neg (h.place?_eq_none_iff.mp hi), keys, List.find?_map]
    have hsame : (fun e : TypeKey × α => view.covers v e.1) = view.covers v ∘ (·.1) := rfl
    simp only [hsame]
    cases hfound : t.entries.find? (view.covers v ∘ (·.1)) with
    | none => rfl
    | some e =>
      obtain ⟨key, a⟩ := e
      simp [h.value?_of_mem (List.mem_of_find?_eq_some hfound)]

/-- The key of the entry that is found is the one that is chosen. -/
theorem map_resolve : (t.resolve view v).map (·.1) = view.chosen? v t.keys := by
  have hvalue : ∀ key ∈ view.chosen? v t.keys, ∃ a, t.value? key = some a := by
    intro key hkey
    have hmem : key ∈ t.keys := by
      rw [View.chosen?] at hkey
      split at hkey
      · next hexact =>
        cases hkey
        exact hexact
      · exact List.mem_of_find?_eq_some hkey
    obtain ⟨i, hi⟩ := h.mem_keys_iff.mp hmem
    obtain ⟨a, _, ha⟩ := h.entry_of_place hi
    exact ⟨a, ha⟩
  rw [h.resolve_eq]
  cases hkey : view.chosen? v t.keys with
  | none => rfl
  | some key =>
    obtain ⟨a, ha⟩ := hvalue key hkey
    simp [ha]

/-- An entry that is added makes no difference to a value with another exact key, if it is not laid
over the one that was found, and if there was one before under each capability. -/
theorem resolve_insert (hne : key ≠ view.typeKey v) (hcap : ∀ c, .capability c ∈ t.keys)
    (hfound : (t.resolve view v).map (·.1) ≠ some key) :
    (t.insert key a).resolve view v = t.resolve view v := by
  rw [h.map_resolve] at hfound
  have hchosen : view.chosen? v (t.insert key a).keys = view.chosen? v t.keys := by
    rw [h.keys_insert]
    split
    · rfl
    · next hnew =>
      refine View.chosen?_append hne (fun c hc => hnew ?_) t.keys
      rw [hc]
      exact hcap c
  rw [h.insert.resolve_eq, h.resolve_eq, hchosen]
  cases hk : view.chosen? v t.keys with
  | none => rfl
  | some k =>
    have hkey : k ≠ key := fun heq => hfound (by rw [hk, heq])
    simp [h.value?_insert, hkey]

end Indexed

theorem Indexed.insertAll (h : t.Indexed) (entries : List (TypeKey × α)) :
    (t.insertAll entries).Indexed := by
  induction entries generalizing t with
  | nil => exact h
  | cons e entries ih => exact ih h.insert

/-- **Entries that are added make no difference** to a value whose exact key is not among theirs, if
none of them is laid over the one that was found. -/
theorem Indexed.resolve_insertAll (h : t.Indexed) (hcap : ∀ c, .capability c ∈ t.keys)
    {entries : List (TypeKey × α)} (hne : view.typeKey v ∉ entries.map (·.1))
    (hfound : ∀ key ∈ entries.map (·.1), (t.resolve view v).map (·.1) ≠ some key) :
    (t.insertAll entries).resolve view v = t.resolve view v := by
  induction entries generalizing t with
  | nil => rfl
  | cons e entries ih =>
    obtain ⟨key, a⟩ := e
    rw [List.map_cons, List.mem_cons, not_or] at hne
    rw [List.map_cons, List.forall_mem_cons] at hfound
    have hfirst : (t.insert key a).resolve view v = t.resolve view v :=
      h.resolve_insert (Ne.symm hne.1) hcap hfound.1
    have hcap' : ∀ c, .capability c ∈ (t.insert key a).keys := by
      intro c
      rw [h.keys_insert]
      split
      · exact hcap c
      · exact List.mem_append_left _ (hcap c)
    rw [← hfirst]
    refine ih h.insert hcap' hne.2 fun k hk => ?_
    rw [hfirst]
    exact hfound.2 k hk

end Table

/-! ### The built-in entries -/

theorem indexed_builtinTable : builtinTable.Indexed := (Table.indexed_empty.insertAll _).insertAll _

/-- There is an entry for each capability. -/
theorem capability_mem_builtinTable (c : Capability) : .capability c ∈ builtinTable.keys := by
  cases c <;> decide

/-- **Functions of the caller make no difference to a value** whose exact key is not one of theirs
and for which the built-in table does not find an entry that they are laid over. -/
theorem Options.resolve_table {o : Options} {view : View} {v : Value}
    (hne : view.typeKey v ∉ o.overrides.map (·.1))
    (hfound : ∀ key ∈ o.overrides.map (·.1), (builtinTable.resolve view v).map (·.1) ≠ some key) :
    o.table.resolve view v = builtinTable.resolve view v :=
  indexed_builtinTable.resolve_insertAll capability_mem_builtinTable hne hfound

end CborGraph
