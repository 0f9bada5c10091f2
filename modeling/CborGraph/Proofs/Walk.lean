import CborGraph.Proofs.ScalarRun

/-!
# Walks

A walk visits the values of a graph depth first: items in order, a key before its value,
what a tag stands for after the tag. It is a tree of what is met on the way. `Walks` says
which walk there is through values, given the containers that are open and the marks that
were given so far. With sharing on, a container that was marked before is not entered
again, and with sharing off a container that is open is refused.

From a walk `Walk.steps` reads off what is written and where the run fails, `Walk.items` the
data items, and `Walk.encounters` when each container is met.

Main statements: there is no more than one walk, `Walks.unique`, and nothing that was
marked before is forgotten, `Walks.lookup_mono`.
-/

namespace CborGraph

/-! ### Steps -/

/-- What is done at one position of a walk. -/
inductive Step
  /-- Bytes are written. -/
  | write (bs : Bytes)
  /-- The run fails. -/
  | fail (e : EncodeError)
deriving DecidableEq

namespace Step

/-- One run after another, each with what it writes. -/
def andThen (p q : Outcome × Bytes) : Outcome × Bytes :=
  match p with
  | (.done, bs) => (q.1, bs ++ q.2)
  | p => p

/-- How a run ends that takes one step, and what it writes. -/
def result : Step → Outcome × Bytes
  | write bs => (.done, bs)
  | fail e => (.failed e, [])

/-- How a run ends that takes steps in order up to one that fails, and what it writes. -/
def run : List Step → Outcome × Bytes
  | [] => (.done, [])
  | step :: steps => andThen step.result (run steps)

theorem andThen_assoc (p q r : Outcome × Bytes) :
    andThen (andThen p q) r = andThen p (andThen q r) := by
  obtain ⟨_ | _ | _, ps⟩ := p
  · obtain ⟨_ | _ | _, qs⟩ := q
    · simp [andThen]
    · rfl
    · rfl
  · rfl
  · rfl

theorem run_append (steps rest : List Step) :
    run (steps ++ rest) = andThen (run steps) (run rest) := by
  induction steps with
  | nil => rfl
  | cons step steps ih => rw [List.cons_append, run, run, ih, andThen_assoc]

/-- What is written before other steps, and what is done after them. -/
theorem run_around (bs : Bytes) (steps rest : List Step) :
    run (write bs :: (steps ++ rest)) = andThen (andThen (.done, bs) (run steps)) (run rest) := by
  rw [run, run_append, result, andThen_assoc]

/-- Steps that write are taken to the end. -/
theorem run_writes (bss : List Bytes) : run (bss.map write) = (.done, bss.flatten) := by
  induction bss with
  | nil => rfl
  | cons bs bss ih =>
    rw [List.map_cons, run, ih]
    rfl

/-- **Steps are taken up to the first that fails.** -/
theorem run_failed (bss : List Bytes) (e : EncodeError) (rest : List Step) :
    run (bss.map write ++ fail e :: rest) = (.failed e, bss.flatten) := by
  rw [run_append, run_writes, run, result, andThen]
  exact congrArg (Prod.mk _) (List.append_nil _)

/-- Either every step writes, or there is a first that fails. -/
theorem exists_writes (steps : List Step) :
    (∃ bss : List Bytes, steps = bss.map write) ∨
      ∃ (bss : List Bytes) (e : EncodeError) (rest : List Step),
        steps = bss.map write ++ fail e :: rest := by
  induction steps with
  | nil => exact .inl ⟨[], rfl⟩
  | cons step steps ih =>
    cases step with
    | fail e => exact .inr ⟨[], e, steps, rfl⟩
    | write bs =>
      obtain ⟨bss, h⟩ | ⟨bss, e, rest, h⟩ := ih
      · exact .inl ⟨bs :: bss, by rw [h, List.map_cons]⟩
      · exact .inr ⟨bs :: bss, e, rest, by rw [h, List.map_cons, List.cons_append]⟩

end Step

/-! ### Walks -/

/-- A walk through values in order. -/
inductive Walk
  /-- There are no more values. -/
  | done
  /-- A scalar. -/
  | scalar (item : Item) (rest : Walk)
  /-- A value that is refused. -/
  | refused (e : EncodeError) (rest : Walk)
  /-- A tag, and the walk through what it stands for. -/
  | tag (number : UInt64) (payload rest : Walk)
  /-- An empty container. -/
  | empty (c : Contents) (rest : Walk)
  /-- A container that was marked before, and its index. -/
  | again (id : Ident) (index : Nat) (rest : Walk)
  /-- A container that is entered, and the walk through what is in it. -/
  | entered (id : Ident) (c : Contents) (body rest : Walk)

/-- A container that is not empty is met. -/
structure Encounter where
  /-- The container. -/
  id : Ident
  /-- The containers that are open, innermost first. -/
  opened : List Ident
  /-- The index that is written in its place; none if it is written in full. -/
  index? : Option Nat
deriving DecidableEq

/-- The item of a container that is entered: with sharing on it is under a tag. -/
def Contents.entered (sharing : Bool) (c : Contents) (parts : List Item) : Item :=
  if sharing then .tag Tag.shareable.toNat (c.item parts) else c.item parts

namespace Walk

/-- The bytes of a reference to a container. -/
def reference (index : Nat) : Bytes :=
  Head.bytes .tag Tag.reference ++ Head.ofLength .unsigned index

/-- What is done at each position in order. -/
def steps (sharing compact : Bool) : Walk → List Step
  | done => []
  | scalar item rest => .write (item.wire compact) :: rest.steps sharing compact
  | refused e rest => .fail e :: rest.steps sharing compact
  | tag number payload rest =>
    .write (Head.bytes .tag number) :: (payload.steps sharing compact ++ rest.steps sharing compact)
  | empty c rest => .write (Head.ofLength c.major 0) :: rest.steps sharing compact
  | again _ index rest => .write (reference index) :: rest.steps sharing compact
  | entered _ c body rest =>
    .write (State.header sharing c.major c.length) ::
      (body.steps sharing compact ++ rest.steps sharing compact)

/-- The items of the values in order, if none is refused. -/
def items (sharing : Bool) : Walk → List Item
  | done => []
  | scalar item rest => item :: rest.items sharing
  | refused _ rest => rest.items sharing
  | tag number payload rest =>
    (payload.items sharing).map (Item.tag number.toNat) ++ rest.items sharing
  | empty c rest => c.item [] :: rest.items sharing
  | again _ index rest => .tag Tag.reference.toNat (.unsigned index) :: rest.items sharing
  | entered _ c body rest =>
    c.entered sharing (body.items sharing) :: rest.items sharing

/-- Why values are refused, in order. -/
def refusals : Walk → List EncodeError
  | done => []
  | scalar _ rest => rest.refusals
  | refused e rest => e :: rest.refusals
  | tag _ payload rest => payload.refusals ++ rest.refusals
  | empty _ rest => rest.refusals
  | again _ _ rest => rest.refusals
  | entered _ _ body rest => body.refusals ++ rest.refusals

/-- When containers that are not empty are met, in order. `opened` are open at the start. -/
def encounters (opened : List Ident) : Walk → List Encounter
  | done => []
  | scalar _ rest => rest.encounters opened
  | refused _ rest => rest.encounters opened
  | tag _ payload rest => payload.encounters opened ++ rest.encounters opened
  | empty _ rest => rest.encounters opened
  | again id index rest => ⟨id, opened, some index⟩ :: rest.encounters opened
  | entered id _ body rest =>
    ⟨id, opened, none⟩ :: (body.encounters (id :: opened) ++ rest.encounters opened)

/-- The containers that are entered, in order. -/
def enteredIds : Walk → List Ident
  | done => []
  | scalar _ rest => rest.enteredIds
  | refused _ rest => rest.enteredIds
  | tag _ payload rest => payload.enteredIds ++ rest.enteredIds
  | empty _ rest => rest.enteredIds
  | again _ _ rest => rest.enteredIds
  | entered id _ body rest => id :: (body.enteredIds ++ rest.enteredIds)

/-- How deep calls are nested on the walk. -/
def height : Walk → Nat
  | done => 0
  | scalar _ rest => max scalarDepth rest.height
  | refused _ rest => max 1 rest.height
  | tag _ payload rest => max (payload.height + 1) rest.height
  | empty _ rest => max 1 rest.height
  | again _ _ rest => max 1 rest.height
  | entered _ _ body rest => max (body.height + 1) rest.height

end Walk

/-- The marks of containers, latest first. -/
abbrev Marks := List (Ident × Nat)

section Walks

variable (settings : Settings) (view : View) (sharing : Bool)

/-- The container may be entered: with sharing on it was not marked, with sharing off it is
not open. -/
def Enters (opened : List Ident) (marks : Marks) (id : Ident) : Prop :=
  if sharing then marks.lookup id = none else id ∉ opened

/-- The marks when a container is entered: with sharing on its mark is the number of those
that are open. -/
def marksInside (opened : List Ident) (marks : Marks) (id : Ident) : Marks :=
  if sharing then (id, opened.length) :: marks else marks

/-- The walk through values. `opened` are open, `marks` were given before, and the last
argument are the marks at the end. -/
inductive Walks : List Ident → Marks → List Value → Walk → Marks → Prop
  /-- No value. -/
  | done {opened marks} : Walks opened marks [] .done marks
  /-- A scalar. -/
  | scalar {opened marks v item vs rest marks'} (hv : settings.item? v = some item)
      (hrest : Walks opened marks vs rest marks') :
      Walks opened marks (v :: vs) (.scalar item rest) marks'
  /-- A value that has no item and no way into it. -/
  | refused {opened marks v e vs rest marks'} (hv : view.refusal? settings v = some e)
      (hrest : Walks opened marks vs rest marks') :
      Walks opened marks (v :: vs) (.refused e rest) marks'
  /-- A tag. -/
  | tag {opened marks number v payload marks' vs rest marks''}
      (hpayload : Walks opened marks [v] payload marks')
      (hrest : Walks opened marks' vs rest marks'') :
      Walks opened marks (.tag number v :: vs) (.tag number payload rest) marks''
  /-- An empty container. -/
  | empty {opened marks id c vs rest marks'} (hc : view.contents? id = some c) (h0 : c.length = 0)
      (hrest : Walks opened marks vs rest marks') :
      Walks opened marks (.container id :: vs) (.empty c rest) marks'
  /-- With sharing on, a container that was marked before. -/
  | again {opened marks id c index vs rest marks'} (hc : view.contents? id = some c)
      (h0 : c.length ≠ 0) (hon : sharing = true) (hm : marks.lookup id = some index)
      (hrest : Walks opened marks vs rest marks') :
      Walks opened marks (.container id :: vs) (.again id index rest) marks'
  /-- With sharing off, a container that is open. -/
  | cyclic {opened marks id c vs rest marks'} (hc : view.contents? id = some c) (h0 : c.length ≠ 0)
      (hoff : sharing = false) (ho : id ∈ opened) (hrest : Walks opened marks vs rest marks') :
      Walks opened marks (.container id :: vs) (.refused .cyclicStructure rest) marks'
  /-- Any other container is entered. -/
  | entered {opened marks id c body marks' vs rest marks''} (hc : view.contents? id = some c)
      (h0 : c.length ≠ 0) (hnew : Enters sharing opened marks id)
      (hbody : Walks (id :: opened) (marksInside sharing opened marks id) c.values body marks')
      (hrest : Walks opened marks' vs rest marks'') :
      Walks opened marks (.container id :: vs) (.entered id c body rest) marks''

end Walks

variable {settings : Settings} {view : View} {sharing : Bool}
variable {opened : List Ident} {marks marks' : Marks} {vs : List Value} {w : Walk}

/-! ### There is one walk -/

theorem item?_of_refusal? {v : Value} {e : EncodeError} (h : view.refusal? settings v = some e) :
    settings.item? v = none := by
  cases v with
  | naiveDateTime t =>
    simp only [View.refusal?] at h
    split at h
    · next ht => rw [Settings.item?, ht, Option.map_none]
    · cases h
  | container id => rfl
  | _ => cases h

theorem refusal?_of_contents {id : Ident} {c : Contents} (h : view.contents? id = some c) :
    view.refusal? settings (.container id) = none := by
  rw [View.refusal?, h, if_neg (Option.some_ne_none c)]

/-- **There is no more than one walk.** -/
theorem Walks.unique (hw : Walks settings view sharing opened marks vs w marks') :
    ∀ {u m}, Walks settings view sharing opened marks vs u m → u = w ∧ m = marks' := by
  induction hw with
  | done =>
    intro u m hu
    cases hu
    exact ⟨rfl, rfl⟩
  | scalar hv _ ih =>
    intro u m hu
    cases hu with
    | scalar hv' hrest =>
      obtain ⟨rfl, rfl⟩ := ih hrest
      rw [hv] at hv'
      cases hv'
      exact ⟨rfl, rfl⟩
    | refused hv' _ => rw [item?_of_refusal? hv'] at hv; cases hv
    | tag _ _ => cases hv
    | empty _ _ _ => cases hv
    | again _ _ _ _ _ => cases hv
    | cyclic _ _ _ _ _ => cases hv
    | entered _ _ _ _ _ => cases hv
  | refused hv _ ih =>
    intro u m hu
    cases hu with
    | scalar hv' _ => rw [item?_of_refusal? hv] at hv'; cases hv'
    | refused hv' hrest =>
      obtain ⟨rfl, rfl⟩ := ih hrest
      rw [hv] at hv'
      cases hv'
      exact ⟨rfl, rfl⟩
    | tag _ _ => cases hv
    | empty hc _ _ => rw [refusal?_of_contents hc] at hv; cases hv
    | again hc _ _ _ _ => rw [refusal?_of_contents hc] at hv; cases hv
    | cyclic hc _ _ _ _ => rw [refusal?_of_contents hc] at hv; cases hv
    | entered hc _ _ _ _ => rw [refusal?_of_contents hc] at hv; cases hv
  | tag _ _ ihp ih =>
    intro u m hu
    cases hu with
    | scalar hv' _ => cases hv'
    | refused hv' _ => cases hv'
    | tag hp hrest =>
      obtain ⟨rfl, rfl⟩ := ihp hp
      obtain ⟨rfl, rfl⟩ := ih hrest
      exact ⟨rfl, rfl⟩
  | empty hc h0 _ ih =>
    intro u m hu
    cases hu with
    | scalar hv' _ => cases hv'
    | refused hv' _ => rw [refusal?_of_contents hc] at hv'; cases hv'
    | empty hc' _ hrest =>
      obtain ⟨rfl, rfl⟩ := ih hrest
      rw [hc] at hc'
      cases hc'
      exact ⟨rfl, rfl⟩
    | again hc' h0' _ _ _ => rw [hc] at hc'; cases hc'; exact absurd h0 h0'
    | cyclic hc' h0' _ _ _ => rw [hc] at hc'; cases hc'; exact absurd h0 h0'
    | entered hc' h0' _ _ _ => rw [hc] at hc'; cases hc'; exact absurd h0 h0'
  | again hc h0 hon hm _ ih =>
    intro u m hu
    cases hu with
    | scalar hv' _ => cases hv'
    | refused hv' _ => rw [refusal?_of_contents hc] at hv'; cases hv'
    | empty hc' h0' _ => rw [hc] at hc'; cases hc'; exact absurd h0' h0
    | again _ _ _ hm' hrest =>
      obtain ⟨rfl, rfl⟩ := ih hrest
      rw [hm] at hm'
      cases hm'
      exact ⟨rfl, rfl⟩
    | cyclic _ _ hoff _ _ => rw [hon] at hoff; cases hoff
    | entered _ _ hnew _ _ => rw [Enters, if_pos hon, hm] at hnew; cases hnew
  | cyclic hc h0 hoff ho _ ih =>
    intro u m hu
    cases hu with
    | scalar hv' _ => cases hv'
    | refused hv' _ => rw [refusal?_of_contents hc] at hv'; cases hv'
    | empty hc' h0' _ => rw [hc] at hc'; cases hc'; exact absurd h0' h0
    | again _ _ hon _ _ => rw [hoff] at hon; cases hon
    | cyclic _ _ _ _ hrest =>
      obtain ⟨rfl, rfl⟩ := ih hrest
      exact ⟨rfl, rfl⟩
    | entered _ _ hnew _ _ =>
      rw [Enters, hoff, if_neg Bool.false_ne_true] at hnew
      exact absurd ho hnew
  | entered hc h0 hnew _ _ ihb ih =>
    intro u m hu
    cases hu with
    | scalar hv' _ => cases hv'
    | refused hv' _ => rw [refusal?_of_contents hc] at hv'; cases hv'
    | empty hc' h0' _ => rw [hc] at hc'; cases hc'; exact absurd h0' h0
    | again _ _ hon hm' _ => rw [Enters, if_pos hon, hm'] at hnew; cases hnew
    | cyclic _ _ hoff ho _ =>
      rw [Enters, hoff, if_neg Bool.false_ne_true] at hnew
      exact absurd ho hnew
    | entered hc' _ _ hbody hrest =>
      rw [hc] at hc'
      cases hc'
      obtain ⟨rfl, rfl⟩ := ihb hbody
      obtain ⟨rfl, rfl⟩ := ih hrest
      exact ⟨rfl, rfl⟩

/-! ### Marks -/

/-- With sharing on, entering a container marks that one and no other. -/
theorem lookup_marksInside_true (opened : List Ident) (marks : Marks) (id jd : Ident) :
    (marksInside true opened marks id).lookup jd =
      if id = jd then some opened.length else marks.lookup jd := by
  rw [marksInside, if_pos rfl, List.lookup_cons]
  by_cases h : id = jd
  · simp [h]
  · simp [h, beq_eq_false_iff_ne.mpr (Ne.symm h)]

theorem lookup_marksInside {id : Ident} (h : Enters sharing opened marks id) {jd : Ident} {index : Nat}
    (hj : marks.lookup jd = some index) :
    (marksInside sharing opened marks id).lookup jd = some index := by
  rw [marksInside]
  split
  · next hon =>
    rw [Enters, if_pos hon] at h
    rw [List.lookup_cons]
    split
    · next heq => rw [eq_of_beq heq, h] at hj; cases hj
    · exact hj
  · exact hj

/-- **A mark is never changed.** -/
theorem Walks.lookup_mono (hw : Walks settings view sharing opened marks vs w marks') {id : Ident}
    {index : Nat} (h : marks.lookup id = some index) : marks'.lookup id = some index := by
  induction hw with
  | done => exact h
  | scalar _ _ ih => exact ih h
  | refused _ _ ih => exact ih h
  | tag _ _ ihp ih => exact ih (ihp h)
  | empty _ _ _ ih => exact ih h
  | again _ _ _ _ _ ih => exact ih h
  | cyclic _ _ _ _ _ ih => exact ih h
  | entered _ _ hnew _ _ ihb ih => exact ih (ihb (lookup_marksInside hnew h))

end CborGraph
