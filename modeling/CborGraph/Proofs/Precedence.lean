import CborGraph.Proofs.Dispatching
import CborGraph.Proofs.Frame

/-!
# Which entry wins

Entries are laid over the built-in ones in the order in which they are registered. A key stands for
what was registered for it last, `Options.registered?`, but it keeps the place that it was given
first, so the two capabilities stay in the order of the built-in table, a mapping before a sequence.
Between the keys that there are a value is therefore found by a fixed order of precedence,
`View.preferred?`, and no order of registration comes into it.

Main statement: `Options.table_precedence`.
-/

namespace CborGraph

/-! ### Entries that are registered one after the other -/

namespace Table

variable {α : Type} {t : Table α} {key : TypeKey} {a : α}

namespace Indexed

variable (h : t.Indexed)

include h

/-- No key stands in two places. -/
theorem nodup_keys : t.keys.Nodup := by
  apply List.pairwise_iff_getElem.mpr
  intro i j hi hj hij heq
  have hfirst : t.place? t.keys[i] = some i := (h _ i).mpr (List.getElem?_eq_getElem hi)
  have hsecond : t.place? t.keys[j] = some j := (h _ j).mpr (List.getElem?_eq_getElem hj)
  rw [heq, hsecond, Option.some_inj] at hfirst
  omega

/-- The entries are what the keys stand for. -/
theorem mem_entries_iff : (key, a) ∈ t.entries ↔ t.value? key = some a := by
  constructor
  · exact h.value?_of_mem
  · intro hvalue
    obtain ⟨i, hi, hentry⟩ := Option.bind_eq_some_iff.mp hvalue
    obtain ⟨b, hb, -⟩ := h.entry_of_place hi
    simp only [hb, Option.map_some, Option.some_inj] at hentry
    exact hentry ▸ List.mem_of_getElem? hb

/-- **Keys keep their order**, and new ones follow in the order of their first registration. -/
theorem keys_insertAll (entries : List (TypeKey × α)) :
    (t.insertAll entries).keys =
      t.keys ++ ((entries.map (·.1)).filter (· ∉ t.keys)).eraseDups := by
  induction entries generalizing t with
  | nil => simp [show t.insertAll [] = t from rfl]
  | cons e entries ih =>
    obtain ⟨key, a⟩ := e
    have hstep : t.insertAll ((key, a) :: entries) = (t.insert key a).insertAll entries := rfl
    rw [hstep, ih h.insert, h.keys_insert]
    by_cases hmem : key ∈ t.keys
    · simp [hmem]
    · have hfilter : (entries.map (·.1)).filter (· ∉ t.keys ++ [key]) =
          ((entries.map (·.1)).filter (· ∉ t.keys)).filter (fun k => !k == key) := by
        rw [List.filter_filter]
        refine List.filter_congr fun k _ => ?_
        by_cases hk : k = key <;> simp [hk]
      rw [if_neg hmem, hfilter]
      simp [hmem, List.eraseDups_cons]

/-- **The last registration of a key wins**, wherever it stands among the others. -/
theorem value?_insertAll (entries : List (TypeKey × α)) :
    (t.insertAll entries).value? key = (entries.reverse.lookup key).or (t.value? key) := by
  induction entries generalizing t with
  | nil => rfl
  | cons e entries ih =>
    obtain ⟨k, a⟩ := e
    have hstep : t.insertAll ((k, a) :: entries) = (t.insert k a).insertAll entries := rfl
    rw [hstep, ih h.insert, h.value?_insert, List.reverse_cons, List.lookup_append, Option.or_assoc]
    by_cases hk : key = k
    · simp [hk]
    · simp [List.lookup_cons, beq_eq_false_iff_ne.mpr hk, hk]

end Indexed

end Table

/-! ### Precedence -/

/-- The keys of the built-in functions, in the order of the table. -/
def Builtin.keys : List TypeKey := entries.map (·.1)

/-- The key under which a value comes first among these: its exact key, or else what it can be read
as, a mapping before a sequence. -/
def View.preferred? (view : View) (v : Value) (keys : List TypeKey) : Option TypeKey :=
  if view.typeKey v ∈ keys then some (view.typeKey v)
  else if (view.mapping? v).isSome then some (.capability .mapping)
  else if (view.sequence? v).isSome then some (.capability .sequence)
  else none

namespace View

variable {view : View} {v : Value} {keys : List TypeKey}

/-- A value of a built-in type has a key of the built-in table. -/
theorem typeKey_of_kind? {k : Kind} (h : view.kind? v = some k) :
    view.typeKey v = .kind k ∧ view.typeKey v ∈ Builtin.keys := by
  have hkey : view.typeKey v = .kind k := by rw [typeKey, h]
  rw [hkey]
  exact ⟨rfl, by cases k <;> decide⟩

/-- The first built-in key that covers a value which has none of them as its own is that of a
capability, a mapping before a sequence. -/
theorem find?_builtin_keys (h : view.typeKey v ∉ Builtin.keys) :
    Builtin.keys.find? (view.covers v) = view.preferred? v Builtin.keys := by
  have hkind : ∀ k, view.covers v (.kind k) = false := by
    intro k
    apply covers_eq_false
    · rintro hk
      apply h
      rw [← hk]
      cases k <;> decide
    · intro c
      exact TypeKey.noConfusion
  rw [preferred?, if_neg h]
  simp only [Builtin.keys, Builtin.entries, List.map_cons, List.map_nil, List.find?_cons, hkind]
  simp only [covers, Capability.holds]
  cases (view.mapping? v).isSome <;> cases (view.sequence? v).isSome <;> rfl

/-- **The first key that covers a value is chosen by precedence**, if the built-in keys come first:
keys of the caller that follow them are not those of capabilities any more. -/
theorem chosen?_eq_preferred? (hcap : ∀ key ∈ keys, key ∉ Builtin.keys) :
    view.chosen? v (Builtin.keys ++ keys) = view.preferred? v (Builtin.keys ++ keys) := by
  rw [chosen?, preferred?]
  by_cases hexact : view.typeKey v ∈ Builtin.keys ++ keys
  · rw [if_pos hexact, if_pos hexact]
  · obtain ⟨hbuiltin, hown⟩ := not_or.mp (mt List.mem_append.mpr hexact)
    have hnone : keys.find? (view.covers v) = none := by
      rw [List.find?_eq_none]
      intro key hkey
      rw [Bool.not_eq_true]
      apply covers_eq_false
      · rintro rfl
        exact hown hkey
      · rintro c rfl
        exact hcap _ hkey (by cases c <;> decide)
    rw [if_neg hexact, if_neg hexact, List.find?_append, hnone, Option.or_none,
      find?_builtin_keys hbuiltin, preferred?, if_neg hbuiltin]

/-- What is preferred for a value depends on nothing but whether its exact key is there. -/
theorem preferred?_congr {keys' : List TypeKey} (h : view.typeKey v ∈ keys ↔ view.typeKey v ∈ keys') :
    view.preferred? v keys = view.preferred? v keys' := by
  simp only [preferred?, h]

end View

/-! ### Tables of options -/

namespace Options

variable {o : Options} {view : View} {v : Value} {key : TypeKey}

/-- What the options register for a key: the last function of the caller's own, or else the built-in
one. -/
def registered? (o : Options) (key : TypeKey) : Option EncodeFn :=
  (o.overrides.reverse.lookup key).or ((Builtin.entries.lookup key).map Builtin.ops)

theorem indexed_table (o : Options) : o.table.Indexed := indexed_builtinTable.insertAll _

theorem keys_builtinTable : builtinTable.keys = Builtin.keys := by
  rw [Table.keys, entries_builtinTable, Builtin.keys, List.map_map]
  rfl

theorem keys_table (o : Options) :
    o.table.keys =
      Builtin.keys ++ ((o.overrides.map (·.1)).filter (· ∉ Builtin.keys)).eraseDups := by
  have h := indexed_builtinTable.keys_insertAll o.overrides
  rwa [keys_builtinTable] at h

theorem mem_keys_table_iff :
    key ∈ o.table.keys ↔ key ∈ Builtin.keys ∨ key ∈ o.overrides.map (·.1) := by
  rw [keys_table, List.mem_append, List.mem_eraseDups, List.mem_filter]
  by_cases h : key ∈ Builtin.keys <;> simp [h]

theorem value?_builtinTable (key : TypeKey) :
    builtinTable.value? key = (Builtin.entries.lookup key).map Builtin.ops := by
  cases key with
  | kind k => cases k <;> rfl
  | custom name => rfl
  | capability c => cases c <;> rfl

theorem value?_table (o : Options) (key : TypeKey) : o.table.value? key = o.registered? key := by
  have h : o.table.value? key = (o.overrides.reverse.lookup key).or (builtinTable.value? key) :=
    indexed_builtinTable.value?_insertAll o.overrides
  rwa [value?_builtinTable] at h

theorem chosen?_table (o : Options) (view : View) (v : Value) :
    view.chosen? v o.table.keys = view.preferred? v o.table.keys := by
  rw [keys_table]
  apply View.chosen?_eq_preferred?
  intro key hkey
  simpa using (List.mem_filter.mp (List.mem_eraseDups.mp hkey)).2

/-- The table finds what is registered for a key. -/
def Finds (o : Options) (view : View) (v : Value) (key : TypeKey) : Prop :=
  ∃ f, o.registered? key = some f ∧ o.table.resolve view v = some (key, f)

/-- **What the table finds** is what is registered for the key that is preferred. -/
theorem finds_of_preferred? (h : view.preferred? v o.table.keys = some key) : o.Finds view v key := by
  have hfound : (o.table.resolve view v).map (·.1) = some key := by
    rw [o.indexed_table.map_resolve, chosen?_table, h]
  obtain ⟨⟨_, f⟩, hresolve, rfl⟩ := Option.map_eq_some_iff.mp hfound
  refine ⟨f, ?_, hresolve⟩
  rw [o.indexed_table.resolve_eq, chosen?_table, h] at hresolve
  simpa [value?_table] using hresolve

/-- The table has nothing for a value for which no key is preferred. -/
theorem resolve_of_preferred?_eq_none (h : view.preferred? v o.table.keys = none) :
    o.table.resolve view v = none := by
  rw [o.indexed_table.resolve_eq, chosen?_table, h, Option.bind_none]

/-- What the caller does not register is as it is built in. -/
theorem registered?_of_not_mem (h : key ∉ o.overrides.map (·.1)) :
    o.registered? key = (Builtin.entries.lookup key).map Builtin.ops := by
  have hnone : o.overrides.reverse.lookup key = none := by
    rw [List.lookup_eq_none_iff]
    intro e he
    rw [List.mem_reverse] at he
    have hne : key ≠ e.1 := fun heq => h (List.mem_map.mpr ⟨e, he, heq.symm⟩)
    simp [hne]
  rw [registered?, hnone, Option.none_or]

theorem lookup_entries_kind (k : Kind) :
    Builtin.entries.lookup (.kind k) = some (Builtin.ofKind k) := by
  cases k <;> rfl

/-- A value of a built-in type is found under its kind. -/
theorem finds_kind (o : Options) {k : Kind} (h : view.kind? v = some k) :
    o.Finds view v (.kind k) := by
  obtain ⟨hkey, hmem⟩ := View.typeKey_of_kind? h
  apply finds_of_preferred?
  rw [View.preferred?, if_pos (mem_keys_table_iff.mpr (.inl hmem)), hkey]

/-- **The table of the options.** Its keys are distinct: the built-in ones in their order, and then
those of the caller in the order of first registration. The index gives each its place. A key stands
for the last function that the caller registered for it, or for the built-in one. A value is found
under its exact key, or else as a mapping, or else as a sequence, and if it is none of these, it has
no entry and is refused by the name of its type.

So a value of a built-in type is always found under its kind, also if capabilities are the
caller's, and the key under which a value is found is the same for all options that agree on
whether its exact key is overridden, in whichever order the others are. -/
theorem table_precedence (o : Options) :
    (o.table.keys.Nodup ∧ Builtin.keys.length = 21 ∧
      o.table.keys =
        Builtin.keys ++ ((o.overrides.map (·.1)).filter (· ∉ Builtin.keys)).eraseDups) ∧
    (∀ key i, o.table.place? key = some i ↔ o.table.keys[i]? = some key) ∧
    (∀ key f, (key, f) ∈ o.table.entries ↔ o.registered? key = some f) ∧
    (∀ (view : View) (v : Value),
      (view.typeKey v ∈ o.table.keys → o.Finds view v (view.typeKey v)) ∧
      (view.typeKey v ∉ o.table.keys →
        ((view.mapping? v).isSome → o.Finds view v (.capability .mapping)) ∧
        (view.mapping? v = none → (view.sequence? v).isSome →
          o.Finds view v (.capability .sequence)) ∧
        (view.mapping? v = none → view.sequence? v = none →
          o.table.resolve view v = none ∧
          ∀ (settings : Settings) (limit : Nat) (s : State),
            (encodeValue o.table settings (limit + 1) view v s).1 =
              .failed (.unsupportedType (view.typeName v))))) ∧
    (∀ (view : View) (v : Value) (k : Kind), view.kind? v = some k →
      o.Finds view v (.kind k) ∧
      (.kind k ∉ o.overrides.map (·.1) →
        o.table.resolve view v = some (.kind k, (Builtin.ofKind k).ops))) ∧
    (∀ (o' : Options) (view : View) (v : Value),
      (view.typeKey v ∈ o.overrides.map (·.1) ↔ view.typeKey v ∈ o'.overrides.map (·.1)) →
        (o.table.resolve view v).map (·.1) = (o'.table.resolve view v).map (·.1)) := by
  refine ⟨⟨o.indexed_table.nodup_keys, rfl, o.keys_table⟩, o.indexed_table, ?_, ?_, ?_, ?_⟩
  · intro key f
    rw [o.indexed_table.mem_entries_iff, value?_table]
  · intro view v
    refine ⟨fun hexact => ?_, fun hexact => ⟨fun hmapping => ?_, fun hmapping hsequence => ?_,
      fun hmapping hsequence => ?_⟩⟩
    · apply finds_of_preferred?
      rw [View.preferred?, if_pos hexact]
    · apply finds_of_preferred?
      rw [View.preferred?, if_neg hexact, if_pos hmapping]
    · apply finds_of_preferred?
      simp [View.preferred?, hexact, hmapping, hsequence]
    · have hnone : o.table.resolve view v = none := by
        apply resolve_of_preferred?_eq_none
        simp [View.preferred?, hexact, hmapping, hsequence]
      refine ⟨hnone, fun settings limit s => ?_⟩
      rw [encodeValue_of_resolve_none hnone]
  · intro view v k hk
    refine ⟨o.finds_kind hk, fun hnew => ?_⟩
    obtain ⟨f, hf, hresolve⟩ := o.finds_kind hk
    rw [registered?_of_not_mem hnew, lookup_entries_kind] at hf
    rw [hresolve, ← Option.some_inj.mp hf]
  · intro o' view v hiff
    rw [o.indexed_table.map_resolve, o'.indexed_table.map_resolve, chosen?_table, chosen?_table]
    apply View.preferred?_congr
    rw [mem_keys_table_iff, mem_keys_table_iff, hiff]

/-- A value that is a mapping as well as a sequence is found as a mapping, although the function for
sequences is registered before and after; an array is found as an array. -/
theorem table_precedence_both_capabilities :
    let f : EncodeFn := fun _ _ _ => [.fail .cyclicStructure]
    let o : Options :=
      { overrides := [(.capability .sequence, f), (.capability .mapping, f), (.capability .sequence, f)] }
    let view := Graph.view ⟨#[.custom ⟨"T", [], some [], some []⟩, .array []]⟩
    o.Finds view (.container (.stored 0)) (.capability .mapping) ∧
      o.registered? (.capability .mapping) = some f ∧
      o.table.resolve view (.container (.stored 1)) = some (.kind .array, (Builtin.ofKind .array).ops) := by
  intro f o view
  obtain ⟨-, -, -, hfinds, hkinds, -⟩ := table_precedence o
  have hexact : view.typeKey (.container (.stored 0)) ∉ o.table.keys := by decide
  have harray : TypeKey.kind .array ∉ o.overrides.map (·.1) := by decide
  exact ⟨((hfinds view _).2 hexact).1 rfl, rfl, (hkinds view _ .array rfl).2 harray⟩

/-- A name that is registered twice keeps its first place, and what was registered last stands
there. -/
example :
    (Table.layered (fun _ => 0) [(.custom "row", 1), (.capability .sequence, 2), (.custom "cell", 3),
      (.custom "row", 4)]).entries.drop 21 = [(.custom "row", 4), (.custom "cell", 3)] := by
  decide

end Options

end CborGraph
