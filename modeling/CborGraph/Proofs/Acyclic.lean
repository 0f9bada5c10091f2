import CborGraph.Proofs.Failure
import CborGraph.Proofs.Reach

/-!
# Values that do not lead back

From a value with no container that leads back to itself, `View.Acyclic`, the walk with sharing
off does not depend on what is open, `Walks.of_clear`: nothing that is open is met. So what a
container is written as is the same wherever it is met, `WrittenAs`.
-/

namespace CborGraph

/-- No container that can be reached from the value leads back to itself. -/
def View.Acyclic (view : View) (v : Value) : Prop :=
  ∀ id c u, view.Reaches v id → view.contents? id = some c → u ∈ c.values → ¬ view.Reaches u id

/-- The containers that can be reached are tried one by one. -/
theorem Graph.acyclic_iff {g : Graph} {v : Value} :
    g.view.Acyclic v ↔ ∀ id ∈ g.reachable v, ∀ u ∈ g.view.inside id, id ∉ g.reachable u := by
  constructor
  · intro h id hid u hu hmem
    obtain ⟨c, hc, hu⟩ := View.mem_inside_iff.mp hu
    exact h id c u (mem_reachable_iff.mp hid).1 hc hu (mem_reachable_iff.mp hmem).1
  · intro h id c u hr hc hu hback
    have hne : g.view.Nonempty id := ⟨c, hc, Contents.length_ne_zero_of_mem hu⟩
    exact h id (mem_reachable_iff.mpr ⟨hr, hne⟩) u (View.mem_inside_iff.mpr ⟨c, hc, hu⟩)
      (mem_reachable_iff.mpr ⟨hback, hne⟩)

instance (g : Graph) (v : Value) : Decidable (g.view.Acyclic v) :=
  decidable_of_iff' _ Graph.acyclic_iff

/-- The values lead to no container that is open, and to none that leads back to itself. -/
structure Clear (view : View) (opened : List Ident) (vs : List Value) : Prop where
  acyclic : ∀ v ∈ vs, view.Acyclic v
  apart : ∀ v ∈ vs, ∀ id ∈ opened, ¬ view.Reaches v id

namespace Clear

variable {view : View} {opened : List Ident} {id : Ident} {v : Value} {vs : List Value}

theorem of_acyclic (h : view.Acyclic v) : Clear view [] [v] where
  acyclic u hu := by rwa [List.mem_singleton.mp hu]
  apart u hu id hid := absurd hid List.not_mem_nil

theorem head (h : Clear view opened (v :: vs)) : Clear view opened [v] where
  acyclic u hu := h.acyclic u (by simp [List.mem_singleton.mp hu])
  apart u hu := h.apart u (by simp [List.mem_singleton.mp hu])

theorem tail (h : Clear view opened (v :: vs)) : Clear view opened vs where
  acyclic u hu := h.acyclic u (List.mem_cons_of_mem _ hu)
  apart u hu := h.apart u (List.mem_cons_of_mem _ hu)

theorem payload {number : UInt64} (h : Clear view opened (.tag number v :: vs)) :
    Clear view opened [v] where
  acyclic u hu id c w hr := by
    rw [List.mem_singleton.mp hu] at hr
    exact h.acyclic _ List.mem_cons_self id c w (.tag hr)
  apart u hu id hid hr := by
    rw [List.mem_singleton.mp hu] at hr
    exact h.apart _ List.mem_cons_self id hid (.tag hr)

theorem not_mem (h : Clear view opened (.container id :: vs)) : id ∉ opened :=
  fun hid => h.apart _ List.mem_cons_self id hid .here

theorem inside (h : Clear view opened (.container id :: vs)) {c : Contents}
    (hc : view.contents? id = some c) : Clear view (id :: opened) c.values where
  acyclic u hu jd d w hr := h.acyclic _ List.mem_cons_self jd d w (.inside hc hu hr)
  apart u hu jd hjd hr := by
    rcases List.mem_cons.mp hjd with rfl | hjd
    · exact h.acyclic _ List.mem_cons_self _ c u .here hc hu hr
    · exact h.apart _ List.mem_cons_self jd hjd (.inside hc hu hr)

end Clear

/-! ### Walks with sharing off -/

namespace Walks

variable {settings : Settings} {view : View} {sharing : Bool} {opened opened' : List Ident}
variable {marks marks' : Marks} {v : Value} {vs : List Value} {w : Walk}

/-- **With sharing off the walk does not depend on what is open**, if it leads to nothing that is. -/
theorem of_clear (hw : Walks settings view false opened marks vs w marks') :
    ∀ {opened' : List Ident}, Clear view opened vs → Clear view opened' vs →
      ∀ k, Walks settings view false opened' k vs w k := by
  induction hw with
  | done => exact fun _ _ k => .done
  | scalar hv _ ih => exact fun h h' k => .scalar hv (ih h.tail h'.tail k)
  | refused hv _ ih => exact fun h h' k => .refused hv (ih h.tail h'.tail k)
  | tag _ _ ihp ih => exact fun h h' k => .tag (ihp h.payload h'.payload k) (ih h.tail h'.tail k)
  | empty hc h0 _ ih => exact fun h h' k => .empty hc h0 (ih h.tail h'.tail k)
  | again _ _ hon _ _ _ => cases hon
  | cyclic _ _ _ ho _ _ => exact fun h => absurd ho h.not_mem
  | entered hc h0 _ _ _ ihb ih =>
    intro opened' h h' k
    refine .entered hc h0 ?_ ?_ (ih h.tail h'.tail k)
    · rw [Enters, if_neg Bool.false_ne_true]
      exact h'.not_mem
    · rw [marksInside, if_neg Bool.false_ne_true]
      exact ihb (h.inside hc) (h'.inside hc) k

/-- The walk through values is one through the first and one through the others. -/
theorem split (hw : Walks settings view sharing opened marks (v :: vs) w marks') :
    ∃ first rest marks₁, Walks settings view sharing opened marks [v] first marks₁ ∧
      Walks settings view sharing opened marks₁ vs rest marks' ∧
      ∀ compact, w.steps sharing compact = first.steps sharing compact ++ rest.steps sharing compact := by
  cases hw with
  | scalar hv hrest => exact ⟨_, _, _, .scalar hv .done, hrest, fun _ => rfl⟩
  | refused hv hrest => exact ⟨_, _, _, .refused hv .done, hrest, fun _ => rfl⟩
  | tag hp hrest => exact ⟨_, _, _, .tag hp .done, hrest, fun _ => by simp [Walk.steps]⟩
  | empty hc h0 hrest => exact ⟨_, _, _, .empty hc h0 .done, hrest, fun _ => rfl⟩
  | again hc h0 hon hm hrest => exact ⟨_, _, _, .again hc h0 hon hm .done, hrest, fun _ => rfl⟩
  | cyclic hc h0 hoff ho hrest => exact ⟨_, _, _, .cyclic hc h0 hoff ho .done, hrest, fun _ => rfl⟩
  | entered hc h0 hnew hb hrest =>
    exact ⟨_, _, _, .entered hc h0 hnew hb .done, hrest, fun _ => by simp [Walk.steps]⟩

/-- The walk through a tag goes through what it stands for. -/
theorem of_tag {number : UInt64} (hw : Walks settings view sharing opened marks [.tag number v] w marks') :
    ∃ payload, w = .tag number payload .done ∧
      Walks settings view sharing opened marks [v] payload marks' := by
  cases hw with
  | scalar hv _ => cases hv
  | refused hv _ => cases hv
  | tag hpayload hnil =>
    cases hnil
    exact ⟨_, rfl, hpayload⟩

/-- With sharing off the walk goes into a container that is not open. -/
theorem of_container {id : Ident} {c : Contents}
    (hw : Walks settings view false opened marks [.container id] w marks')
    (hc : view.contents? id = some c) (h0 : c.length ≠ 0) (hid : id ∉ opened) :
    ∃ body, w = .entered id c body .done ∧
      Walks settings view false (id :: opened) (marksInside false opened marks id) c.values body marks' := by
  cases hw with
  | scalar hv _ => cases hv
  | refused hv _ => rw [refusal?_of_contents hc] at hv; cases hv
  | empty hc' h0' _ => rw [hc] at hc'; cases hc'; exact absurd h0' h0
  | again _ _ hon _ _ => cases hon
  | cyclic _ _ _ ho _ => exact absurd ho hid
  | entered hc' _ _ hbody hnil =>
    rw [hc] at hc'
    cases hc'
    cases hnil
    exact ⟨_, rfl, hbody⟩

end Walks

/-! ### What was written in full -/

section

variable (settings : Settings) (view : View)

/-- With sharing off the container is written as these bytes. -/
def WrittenAs (id : Ident) (bs : Bytes) : Prop :=
  ∃ w, Walks settings view false [] [] [.container id] w [] ∧
    Step.run (w.steps false settings.compactFloats) = (.done, bs)

/-- A container that has a mark is open, or was written as `full` says. -/
def Marks.Written (full : Ident → Bytes) (opened : List Ident) (marks : Marks) : Prop :=
  ∀ id, Marked marks id → id ∈ opened ∨ WrittenAs settings view id (full id)

end

section

variable {settings : Settings} {view : View} {full : Ident → Bytes} {opened : List Ident}
variable {marks k k' : Marks} {id : Ident} {u : Walk}

/-- What is written from a place where other containers are open is written as well where none is. -/
theorem WrittenAs.of_walk (hu : Walks settings view false opened k [.container id] u k')
    (hclear : Clear view opened [.container id])
    (hdone : (Step.run (u.steps false settings.compactFloats)).1 = .done) :
    WrittenAs settings view id (Step.run (u.steps false settings.compactFloats)).2 :=
  ⟨u, hu.of_clear hclear (.of_acyclic (hclear.acyclic _ List.mem_cons_self)) [], Prod.ext hdone rfl⟩

theorem Marks.Written.inside (h : Marks.Written settings view full opened marks) :
    Marks.Written settings view full (id :: opened) (marksInside true opened marks id) := by
  intro jd hm
  rcases (marked_marksInside_iff ..).mp hm with rfl | hm
  · exact .inl List.mem_cons_self
  · exact (h jd hm).imp (List.mem_cons_of_mem _) fun hw => hw

theorem Marks.Written.outside (h : Marks.Written settings view full (id :: opened) marks)
    (hid : WrittenAs settings view id (full id)) : Marks.Written settings view full opened marks := by
  intro jd hm
  rcases h jd hm with hjd | hjd
  · rcases List.mem_cons.mp hjd with rfl | hjd
    · exact .inr hid
    · exact .inl hjd
  · exact .inr hjd

end

end CborGraph
