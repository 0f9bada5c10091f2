/-!
# Ranges of code points

A property of characters as the runs of code points that have it. The tables of
properties follow Unicode 17.0.
-/

namespace CborGraph.Text

/-- The first and last code point of every run, in ascending order. -/
abbrev Ranges := List (Nat × Nat)

namespace Ranges

/-- The character is in one of the runs. -/
def covers (rs : Ranges) (c : Char) : Bool :=
  rs.any fun (first, last) => first ≤ c.toNat && c.toNat ≤ last

/-- The runs are in ascending order, and there is a code point between any two. -/
def ascending : Ranges → Bool
  | [] => true
  | [r] => r.1 ≤ r.2
  | r :: s :: rs => r.1 ≤ r.2 && r.2 + 1 < s.1 && ascending (s :: rs)

theorem covers_iff {rs : Ranges} {c : Char} :
    rs.covers c = true ↔ ∃ r ∈ rs, r.1 ≤ c.toNat ∧ c.toNat ≤ r.2 := by
  simp [covers]

/-- Where every run ends before `first` or begins after `last`, nothing from `first` to
`last` is covered. -/
theorem covers_eq_false {rs : Ranges} {first last : Nat} {c : Char}
    (h : rs.all (fun r => r.2 < first || last < r.1) = true) (hc : first ≤ c.toNat)
    (hc' : c.toNat ≤ last) : rs.covers c = false := by
  rw [Bool.eq_false_iff, Ne, covers_iff]
  rintro ⟨r, hr, hle, hge⟩
  have := List.all_eq_true.1 h r hr
  simp only [Bool.or_eq_true, decide_eq_true_eq] at this
  omega

end Ranges

end CborGraph.Text
