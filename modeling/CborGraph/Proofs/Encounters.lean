import CborGraph.Proofs.WalkItem

/-!
# When containers are met

Whether a container is entered or referred to, and by which index, is told by the encounters
alone: `Walks.index_of_encounter`, a container is referred to exactly if it was met before, and
its index is the number of containers that were open when it was first met.

While a container is open its index is its place among those that are open, counted from
the outermost: `Walks.place_of_encounter`.
-/

namespace CborGraph

section

variable {settings : Settings} {view : View} {sharing : Bool} {opened : List Ident}
variable {marks marks' : Marks} {vs : List Value} {w : Walk}

/-! ### Indexes -/

namespace Encounter

/-- The number of containers that were open when the container was first met, if it was met. -/
def firstIndex? (es : List Encounter) (id : Ident) : Option Nat :=
  (es.find? fun e => e.id = id).map fun e => e.opened.length

theorem firstIndex?_append_singleton (es : List Encounter) (e : Encounter) (id : Ident) :
    firstIndex? (es ++ [e]) id =
      (firstIndex? es id).or (if e.id = id then some e.opened.length else none) := by
  rw [firstIndex?, List.find?_append, firstIndex?, List.find?_singleton]
  cases es.find? fun e => e.id = id with
  | some f => rfl
  | none =>
    by_cases h : e.id = id
    · simp [h]
    · simp [h]

/-- A container has an index exactly if it was met. -/
theorem isSome_firstIndex?_iff {es : List Encounter} {id : Ident} :
    (firstIndex? es id).isSome ↔ ∃ e ∈ es, e.id = id := by
  rw [firstIndex?, Option.isSome_map, List.find?_isSome]
  simp only [decide_eq_true_eq]

/-- Meeting a container again changes no index. -/
theorem firstIndex?_of_met {es : List Encounter} {e : Encounter} {index : Nat}
    (h : firstIndex? es e.id = some index) (id : Ident) :
    firstIndex? (es ++ [e]) id = firstIndex? es id := by
  rw [firstIndex?_append_singleton]
  by_cases hid : e.id = id
  · subst hid
    rw [h]
    rfl
  · rw [if_neg hid, Option.or_none]

/-- After `before`, each of the encounters writes the index that the container was first met
with, if it was met. -/
def Indexed (before : List Encounter) : List Encounter → Prop
  | [] => True
  | e :: es => e.index? = firstIndex? before e.id ∧ Indexed (before ++ [e]) es

theorem Indexed.append {before es fs : List Encounter} (h : Indexed before es)
    (h' : Indexed (before ++ es) fs) : Indexed before (es ++ fs) := by
  induction es generalizing before with
  | nil =>
    rw [List.append_nil] at h'
    exact h'
  | cons e es ih =>
    refine ⟨h.1, ih h.2 ?_⟩
    rw [List.append_assoc, List.singleton_append]
    exact h'

theorem Indexed.index?_eq {before es fs : List Encounter} {e : Encounter}
    (h : Indexed before (es ++ e :: fs)) : e.index? = firstIndex? (before ++ es) e.id := by
  induction es generalizing before with
  | nil =>
    rw [List.append_nil]
    exact h.1
  | cons f es ih =>
    have := ih h.2
    rwa [List.append_assoc, List.singleton_append] at this

end Encounter

open Encounter in
/-- The marks keep what the encounters tell, by induction on the walk. -/
theorem Walks.indexed (hw : Walks settings view true opened marks vs w marks') :
    ∀ {before : List Encounter}, (∀ id, marks.lookup id = firstIndex? before id) →
      Indexed before (w.encounters opened) ∧
        ∀ id, marks'.lookup id = firstIndex? (before ++ w.encounters opened) id := by
  induction hw with
  | done =>
    intro before h
    refine ⟨trivial, fun id => ?_⟩
    rw [h id, Walk.encounters, List.append_nil]
  | scalar _ _ ih => exact ih
  | refused _ _ ih => exact ih
  | tag _ _ ihp ih =>
    intro before h
    obtain ⟨hp, hmarks⟩ := ihp h
    obtain ⟨hr, hmarks'⟩ := ih hmarks
    rw [Walk.encounters]
    refine ⟨hp.append hr, fun id => ?_⟩
    rw [hmarks' id, List.append_assoc]
  | empty _ _ _ ih => exact ih
  | @again opened marks id _ index _ _ _ _ _ _ hm _ ih =>
    intro before h
    have hmet : firstIndex? before id = some index := by rw [← h id, hm]
    have hafter : ∀ jd, marks.lookup jd = firstIndex? (before ++ [⟨id, opened, some index⟩]) jd := by
      intro jd
      rw [firstIndex?_of_met hmet, h jd]
    obtain ⟨hr, hmarks'⟩ := ih hafter
    refine ⟨⟨hmet.symm, hr⟩, fun jd => ?_⟩
    rw [hmarks' jd, Walk.encounters, List.append_assoc, List.singleton_append]
  | cyclic _ _ hoff _ _ _ => cases hoff
  | @entered opened marks id _ _ _ _ _ _ _ _ hnew _ _ ihb ih =>
    intro before h
    rw [Enters, if_pos rfl] at hnew
    have hfirst : firstIndex? before id = none := by rw [← h id, hnew]
    have hinside : ∀ jd, (marksInside true opened marks id).lookup jd =
        firstIndex? (before ++ [⟨id, opened, none⟩]) jd := by
      intro jd
      rw [lookup_marksInside_true, firstIndex?_append_singleton, ← h jd]
      by_cases hid : id = jd
      · rw [if_pos hid, if_pos hid, ← hid, hnew, Option.none_or]
      · rw [if_neg hid, if_neg hid, Option.or_none]
    obtain ⟨hb, hmarks₁⟩ := ihb hinside
    obtain ⟨hr, hmarks'⟩ := ih hmarks₁
    rw [Walk.encounters]
    refine ⟨⟨hfirst.symm, hb.append hr⟩, fun jd => ?_⟩
    rw [hmarks' jd]
    simp only [List.append_assoc, List.cons_append, List.nil_append]

/-- **A container is referred to exactly if it was met before**, by the number of containers
that were open when it was first met. -/
theorem Walks.index_of_encounter (hw : Walks settings view true [] [] vs w marks')
    {before after : List Encounter} {e : Encounter} (h : w.encounters [] = before ++ e :: after) :
    e.index? = Encounter.firstIndex? before e.id := by
  have hnone : ∀ id, List.lookup id ([] : Marks) = Encounter.firstIndex? [] id := fun id => rfl
  obtain ⟨hindexed, _⟩ := hw.indexed hnone
  rw [h] at hindexed
  exact hindexed.index?_eq

end

/-! ### Places among those that are open -/

/-- **The index of a container that is open is its place**, counted from the outermost. -/
theorem Walks.place_of_encounter {settings : Settings} {g : Graph} {opened : List Ident}
    {marks marks' : Marks} {vs : List Value} {w : Walk}
    (hw : Walks settings g.view true opened marks vs w marks') (ht : Tracked g true opened marks)
    {e : Encounter} (he : e ∈ w.encounters opened) {index : Nat} (hindex : e.index? = some index)
    (hopen : e.id ∈ e.opened) : e.opened.reverse[index]? = some e.id := by
  induction hw with
  | done => cases he
  | scalar _ _ ih => exact ih ht he
  | refused _ _ ih => exact ih ht he
  | tag hpayload _ ihp ih =>
    rcases List.mem_append.mp he with he | he
    · exact ihp ht he
    · exact ih (hpayload.tracked ht) he
  | empty _ _ _ ih => exact ih ht he
  | again _ _ _ hm _ ih =>
    rcases List.mem_cons.mp he with rfl | he
    · cases hindex
      obtain ⟨inner, outer, hsplit⟩ := List.append_of_mem hopen
      have hmark := ht.marked rfl inner _ outer hsplit
      rw [hm] at hmark
      cases hmark
      simp only at hsplit
      simp [hsplit]
    · exact ih ht he
  | cyclic _ _ _ _ _ ih => exact ih ht he
  | entered hc h0 hnew hbody _ ihb ih =>
    have hin := ht.inside hc h0 hnew
    rcases List.mem_cons.mp he with rfl | he
    · cases hindex
    · rcases List.mem_append.mp he with he | he
      · exact ihb hin he
      · exact ih (hbody.tracked hin).tail he

end CborGraph
