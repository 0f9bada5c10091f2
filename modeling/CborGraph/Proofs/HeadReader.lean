import CborGraph.Head
import CborGraph.Proofs.Numeral

/-!
# Reading heads

A head is read back from its bytes: the major type from the first three bits, the low five
bits, and the argument, which is either those bits or the bytes that follow. Arguments are
accepted in any width, and `Reading.isPreferred` tells the shortest. `read?_bytes` says
that a head that was written is read back and is preferred.
-/

namespace CborGraph

namespace Bytes

/-- The first `n` bytes, and what follows them. -/
def split? (n : Nat) (bs : Bytes) : Option (Bytes × Bytes) :=
  if n ≤ bs.length then some (bs.take n, bs.drop n) else none

theorem split?_append {n : Nat} {bs : Bytes} (h : bs.length = n) (rest : Bytes) :
    split? n (bs ++ rest) = some (bs, rest) := by
  subst h
  simp [split?]

end Bytes

namespace Head

/-- A head as it was read. -/
structure Reading where
  /-- The major type. -/
  major : Major
  /-- The low five bits of the first byte. -/
  info : Nat
  /-- The argument. -/
  argument : Nat

namespace Reading

/-- The item has no length of its own and ends with a break. -/
def isIndefinite (h : Reading) : Bool := h.info = 31

/-- The least argument that needs as many bytes. -/
def least (h : Reading) : Nat :=
  if h.info < 24 then 0
  else if h.info = 24 then 24
  else 256 ^ 2 ^ (h.info - 25)

/-- The argument is written in the shortest form. -/
def isPreferred (h : Reading) : Bool := !h.isIndefinite && h.least ≤ h.argument

end Reading

/-- The head at the start of a byte string, and what follows it. Three values of the low
bits are reserved. -/
def read? : Bytes → Option (Reading × Bytes)
  | [] => none
  | b :: bs =>
    let major := Major.ofLowBits (b >>> 5)
    let info := (b &&& 31).toNat
    if info < 24 then some (⟨major, info, info⟩, bs)
    else if info < 28 then
      (Bytes.split? (2 ^ (info - 24)) bs).map fun (argument, rest) =>
        (⟨major, info, Bytes.toNat argument⟩, rest)
    else if info = 31 then some (⟨major, info, 0⟩, bs)
    else none

/-! ### Heads that were written -/

/-- The major type and the low bits share the first byte. -/
theorem split_first (major : Major) {info : UInt8} (h : info.toNat < 32) :
    Major.ofLowBits (first major info >>> 5) = major ∧ first major info &&& 31 = info := by
  have all : ∀ k : Fin 32, Major.ofLowBits (first major (UInt8.ofNat k) >>> 5) = major ∧
      first major (UInt8.ofNat k) &&& 31 = UInt8.ofNat k := by
    cases major <;> decide
  have := all ⟨info.toNat, h⟩
  rwa [UInt8.ofNat_toNat] at this

/-- A first byte followed by the argument that it announces. -/
theorem read?_fixed (major : Major) (info : UInt8) {n : Nat} (h₁ : 24 ≤ info.toNat)
    (h₂ : info.toNat < 28) (hn : n < 256 ^ 2 ^ (info.toNat - 24)) (rest : Bytes) :
    read? (first major info :: Bytes.fixed (2 ^ (info.toNat - 24)) n ++ rest) =
      some (⟨major, info.toNat, n⟩, rest) := by
  obtain ⟨hm, hi⟩ := split_first major (show info.toNat < 32 by omega)
  simp only [List.cons_append, read?, hm, hi]
  rw [if_neg (by omega), if_pos h₂, Bytes.split?_append (Bytes.length_fixed ..), Option.map_some,
    Bytes.toNat_fixed, Nat.mod_eq_of_lt hn]

/-- The low five bits of the head with argument `n`. -/
def info (n : Nat) : Nat :=
  if n < 24 then n
  else if n < 0x100 then 24
  else if n < 0x10000 then 25
  else if n < 0x100000000 then 26
  else 27

/-- **A head that was written is read back**, whatever follows it. -/
theorem read?_bytes (major : Major) (n : UInt64) (rest : Bytes) :
    read? (bytes major n ++ rest) = some (⟨major, info n.toNat, n.toNat⟩, rest) := by
  have hn : n.toNat < 2 ^ 64 := n.toNat_lt
  simp only [bytes, info, UInt64.lt_iff_toNat_lt, UInt64.reduceToNat]
  split_ifs with h24 h8 h16 h32
  · have hb : n.toUInt8.toNat = n.toNat := by
      rw [UInt64.toNat_toUInt8]
      omega
    obtain ⟨hm, hi⟩ := split_first major (show n.toUInt8.toNat < 32 by omega)
    simp [read?, hm, hi, hb, h24]
  · exact read?_fixed major 24 (by decide) (by decide) h8 rest
  · exact read?_fixed major 25 (by decide) (by decide) h16 rest
  · exact read?_fixed major 26 (by decide) (by decide) h32 rest
  · exact read?_fixed major 27 (by decide) (by decide) hn rest

/-- **No head is the start of another**: byte strings that begin with heads are equal only if the
heads are, and what follows them. -/
theorem bytes_append_inj {major major' : Major} {n n' : UInt64} {rest rest' : Bytes}
    (h : bytes major n ++ rest = bytes major' n' ++ rest') :
    major = major' ∧ n = n' ∧ rest = rest' := by
  have hread := read?_bytes major n rest
  rw [h, read?_bytes] at hread
  simp only [Option.some.injEq, Prod.mk.injEq, Reading.mk.injEq] at hread
  obtain ⟨⟨hmajor, -, hn⟩, hrest⟩ := hread
  exact ⟨hmajor.symm, UInt64.toNat_inj.mp hn.symm, hrest.symm⟩

theorem info_lt (n : Nat) : info n < 28 := by
  rw [info]
  split_ifs <;> omega

/-- No shorter form has room for the argument. -/
theorem isPreferred_info (major : Major) (n : Nat) :
    (⟨major, info n, n⟩ : Reading).isPreferred = true := by
  have hne : info n ≠ 31 := by
    have := info_lt n
    omega
  have hle : (⟨major, info n, n⟩ : Reading).least ≤ n := by
    simp only [Reading.least, info]
    split_ifs <;> simp_all
  simp [Reading.isPreferred, Reading.isIndefinite, hne, hle]

theorem length_bytes_pos (major : Major) (n : UInt64) : 0 < (bytes major n).length := by
  rw [bytes]
  split_ifs <;> simp

end Head

end CborGraph
