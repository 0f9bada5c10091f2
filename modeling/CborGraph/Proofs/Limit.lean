import CborGraph.Proofs.Frame

/-!
# The limit of nesting

A run that does not come to the limit of nesting does not depend on it. `Agrees` says of two
ways to call for a value that the second does what the first does wherever the first is not
exhausted. Operations then agree as well, `Agrees.runAll`, and so do calls with more room,
`encodeValue_of_le`, and calls with and without the assertion, `agrees_asserting`.
-/

namespace CborGraph

/-- `r'` does what `r` does, unless `r` is exhausted. -/
def Run.Agrees (r r' : Run) : Prop := ∀ s, (r s).1 ≠ .exhausted → r' s = r s

/-- Calls agree on every value. -/
def Agrees (call call' : View → Value → Run) : Prop := ∀ view v, (call view v).Agrees (call' view v)

namespace Run.Agrees

theorem refl (r : Run) : r.Agrees r := fun _ _ => rfl

theorem andThen {r r' k k' : Run} (hr : r.Agrees r') (hk : k.Agrees k') :
    (r.andThen k).Agrees (r'.andThen k') := by
  intro s h
  unfold Run.andThen at h ⊢
  have hne : (r s).1 ≠ .exhausted := by
    rcases hrun : r s with ⟨_ | e | _, t⟩ <;> simp_all
  rw [hr s hne]
  rcases hrun : r s with ⟨_ | e | _, t⟩
  · rw [hrun] at h
    exact hk t h
  · rfl
  · rfl

theorem enclosed {body body' : Run} (h : body.Agrees body') (head : Bytes) (id : Ident) :
    (Run.enclosed head id body).Agrees (Run.enclosed head id body') := by
  refine andThen (refl _) fun s hs => ?_
  rw [h _ hs]

theorem admitted {body body' : Run} (h : body.Agrees body') (head : Bytes) (id : Ident) :
    (Run.admitted head id body).Agrees (Run.admitted head id body') := by
  intro s hs
  unfold Run.admitted at hs ⊢
  cases ha : s.admission id with
  | marked index => rfl
  | cyclic => rfl
  | plain =>
    rw [ha] at hs
    exact h.enclosed head id s hs
  | fresh =>
    rw [ha] at hs
    exact (refl _).andThen (h.enclosed head id) _ hs

end Run.Agrees

namespace Agrees

variable {call call' : View → Value → Run}

mutual

/-- **An operation agrees with itself** if the calls that it makes agree. -/
theorem run (h : Agrees call call') (view : View) :
    ∀ op : Op, Run.Agrees (Op.run call view op) (Op.run call' view op)
  | .write bs => .refl _
  | .encode dr => fun s hs => by
    rw [Op.run] at hs ⊢
    exact h _ _ _ hs
  | .suspended body => fun s hs => by
    simp only [Op.run] at hs ⊢
    rw [runAll h view body _ hs]
  | .container owner major length body => fun s hs => by
    by_cases h0 : length = 0
    · simp only [Op.run, if_pos h0]
    · rw [Op.run_container h0] at hs
      rw [Op.run_container h0, Op.run_container h0]
      exact Run.Agrees.admitted (runAll h view body) _ _ _ hs
  | .attempt body => fun s hs => by
    simp only [Op.run] at hs ⊢
    have hne : (Op.runAll call view body s).1 ≠ .exhausted := by
      rcases hrun : Op.runAll call view body s with ⟨_ | e | _, t⟩ <;> simp_all
    rw [runAll h view body s hne]
  | .fail e => .refl _
  | .observe => .refl _

/-- Operations in order agree if their calls do. -/
theorem runAll (h : Agrees call call') (view : View) :
    ∀ ops : List Op, Run.Agrees (Op.runAll call view ops) (Op.runAll call' view ops)
  | [] => .refl _
  | op :: ops => Run.Agrees.andThen (run h view op) (runAll h view ops)

end

end Agrees

/-- **With more room a call does the same**, unless it was exhausted. -/
theorem agrees_encodeValue (table : Table EncodeFn) (settings : Settings) {limit limit' : Nat}
    (h : limit ≤ limit') :
    Agrees (encodeValue table settings limit) (encodeValue table settings limit') := by
  induction limit generalizing limit' with
  | zero => exact fun view v s hs => absurd rfl hs
  | succ limit ih =>
    obtain ⟨limit', rfl⟩ := Nat.exists_eq_add_of_le' (le_trans (Nat.le_add_left 1 limit) h)
    intro view v s hs
    cases hfound : table.resolve view v with
    | none => rw [encodeValue_of_resolve_none hfound, encodeValue_of_resolve_none hfound]
    | some entry =>
      obtain ⟨key, f⟩ := entry
      rw [encodeValue_of_some hfound] at hs
      rw [encodeValue_of_some hfound, encodeValue_of_some hfound]
      simp only at hs ⊢
      rw [(ih (Nat.le_of_succ_le_succ h)).runAll view _ _ hs]

/-- **With the assertion a call does the same**, unless the assertion fails. -/
theorem agrees_asserting (call : View → Value → Run) : Agrees (asserting call) call := by
  intro view v s hs
  unfold asserting at hs ⊢
  split at hs
  · exact absurd rfl hs
  · next h => rw [if_neg h]

end CborGraph
