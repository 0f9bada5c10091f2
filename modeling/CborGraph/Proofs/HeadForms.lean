import CborGraph.Proofs.HeadReader
import CborGraph.Proofs.Run

/-!
# The forms of a head

The argument of a head stands in the low five bits of the first byte, if it is below 24, or in one,
two, four or eight bytes after it, with the most significant first and leading zeros allowed.
`Head.Encodes` says which byte strings are heads of a major type and an argument, apart from how one is
written or read: the reader accepts these and no others, `Head.read?_eq_some_iff`, and what is written
is the one that is shortest.

Main statement: `Head.bytes_invertible_shortest`.
-/

namespace CborGraph

theorem Bytes.eq_append_of_split? {n : Nat} {bs front rest : Bytes} (h : split? n bs = some (front, rest)) :
    front.length = n ∧ bs = front ++ rest := by
  rw [split?] at h
  split at h
  · next hlen =>
    cases h
    exact ⟨List.length_take_of_le hlen, (List.take_append_drop n bs).symm⟩
  · cases h

namespace Head

/-- The byte string is a head of the major type with the argument. -/
inductive Encodes (major : Major) (n : Nat) : Bytes → Prop
  /-- The argument stands in the first byte. -/
  | within (h : n < 24) : Encodes major n [UInt8.ofNat (major.code.toNat * 32 + n)]
  /-- The argument stands in one, two, four or eight bytes after the first. -/
  | following {k : Nat} {bs : Bytes} (hk : k < 4) (hlen : bs.length = 2 ^ k) (hn : Bytes.toNat bs = n) :
    Encodes major n (UInt8.ofNat (major.code.toNat * 32 + (24 + k)) :: bs)

/-- The head counts what follows, and does not leave the end open. -/
abbrev Reading.Tells (h : Reading) (major : Major) (n : Nat) : Prop :=
  h.major = major ∧ h.argument = n ∧ h.isIndefinite = false

/-! ### The first byte -/

/-- Shifted bits and low bits make a sum. -/
theorem first_eq (major : Major) {info : Nat} (h : info < 32) :
    first major (UInt8.ofNat info) = UInt8.ofNat (major.code.toNat * 32 + info) := by
  have all : ∀ k : Fin 32, first major (UInt8.ofNat k) = UInt8.ofNat (major.code.toNat * 32 + k) := by
    cases major <;> decide
  exact all ⟨info, h⟩

/-- The first three bits and the low five make up the byte. -/
theorem first_split (b : UInt8) : first (Major.ofLowBits (b >>> 5)) (b &&& 31) = b := by
  have all : ∀ k : Fin 256, first (Major.ofLowBits (UInt8.ofNat k >>> 5)) (UInt8.ofNat k &&& 31) =
      UInt8.ofNat k := by
    decide +kernel
  have := all ⟨b.toNat, b.toNat_lt⟩
  rwa [UInt8.ofNat_toNat] at this

/-- Every byte is the first of a head. -/
theorem exists_first (b : UInt8) :
    ∃ (major : Major) (info : Nat), info < 32 ∧ b = UInt8.ofNat (major.code.toNat * 32 + info) := by
  have hlow : (b &&& 31).toNat < 32 := by
    rw [UInt8.toNat_and]
    exact Nat.lt_succ_of_le Nat.and_le_right
  refine ⟨Major.ofLowBits (b >>> 5), (b &&& 31).toNat, hlow, ?_⟩
  rw [← first_eq _ hlow, UInt8.ofNat_toNat, first_split]

/-- The reader finds major type and low bits in the first byte. -/
theorem read?_first (major : Major) {info : Nat} (h : info < 32) (bs : Bytes) :
    read? (UInt8.ofNat (major.code.toNat * 32 + info) :: bs) =
      if info < 24 then some (⟨major, info, info⟩, bs)
      else if info < 28 then
        (Bytes.split? (2 ^ (info - 24)) bs).map fun (argument, rest) =>
          (⟨major, info, Bytes.toNat argument⟩, rest)
      else if info = 31 then some (⟨major, info, 0⟩, bs)
      else none := by
  have hinfo : (UInt8.ofNat info).toNat = info := by
    rw [UInt8.toNat_ofNat']
    omega
  obtain ⟨hm, hi⟩ := split_first major (show (UInt8.ofNat info).toNat < 32 by omega)
  rw [← first_eq major h, read?]
  simp only [hm, hi, hinfo]

/-! ### The reader -/

variable {major major' : Major} {n n' : Nat} {bs rest : Bytes}

/-- A head is read as what it tells, whatever follows it. -/
theorem Encodes.read? (h : Encodes major n bs) (rest : Bytes) :
    ∃ r : Reading, Head.read? (bs ++ rest) = some (r, rest) ∧ r.Tells major n := by
  cases h with
  | within h =>
    have hdefinite : n ≠ 31 := by omega
    refine ⟨⟨major, n, n⟩, ?_, rfl, rfl, ?_⟩
    · rw [List.singleton_append, read?_first major (by omega), if_pos h]
    · simp [Reading.isIndefinite, hdefinite]
  | @following k bs hk hlen hn =>
    have hdefinite : 24 + k ≠ 31 := by omega
    refine ⟨⟨major, 24 + k, Bytes.toNat bs⟩, ?_, rfl, hn, ?_⟩
    · rw [List.cons_append, read?_first major (by omega), if_neg (by omega), if_pos (by omega),
        Nat.add_sub_cancel_left, Bytes.split?_append hlen, Option.map_some]
    · simp [Reading.isIndefinite, hdefinite]

/-- What is read as a head is one. -/
theorem exists_encodes_of_read? {r : Reading} (h : read? bs = some (r, rest)) (hr : r.Tells major n) :
    ∃ head, Encodes major n head ∧ bs = head ++ rest := by
  obtain ⟨rfl, rfl, hdefinite⟩ := hr
  cases bs with
  | nil => cases h
  | cons b bs =>
    obtain ⟨major, info, hinfo, rfl⟩ := exists_first b
    rw [read?_first major hinfo] at h
    split at h
    · next hwithin =>
      cases h
      exact ⟨_, .within hwithin, rfl⟩
    · next hlong =>
      split at h
      · next hfollow =>
        obtain ⟨k, rfl⟩ := Nat.exists_eq_add_of_le (Nat.not_lt.mp hlong)
        rw [Nat.add_sub_cancel_left] at h
        obtain ⟨⟨argument, rest'⟩, hsplit, heq⟩ := Option.map_eq_some_iff.mp h
        cases heq
        obtain ⟨hlen, rfl⟩ := Bytes.eq_append_of_split? hsplit
        exact ⟨_, .following (by omega) hlen rfl, rfl⟩
      · -- The other first bytes leave the end open or are reserved.
        split at h
        · next hopen =>
          cases h
          simp [Reading.isIndefinite, hopen] at hdefinite
        · cases h

/-- **The reader accepts the heads that there are**, and no others. -/
theorem read?_eq_some_iff :
    (∃ r : Reading, read? bs = some (r, rest) ∧ r.Tells major n) ↔
      ∃ head, Encodes major n head ∧ bs = head ++ rest := by
  constructor
  · rintro ⟨r, h, hr⟩
    exact exists_encodes_of_read? h hr
  · rintro ⟨head, h, rfl⟩
    exact h.read? rest

/-- **No head is the start of another**, in whatever form. -/
theorem Encodes.eq_of_isPrefix {head head' : Bytes} (h : Encodes major n head)
    (h' : Encodes major' n' head') (hp : head <+: head') : major = major' ∧ n = n' := by
  obtain ⟨rest, rfl⟩ := hp
  obtain ⟨r, hread, hmajor, hn, -⟩ := h.read? rest
  obtain ⟨r', hread', hmajor', hn', -⟩ := h'.read? []
  rw [List.append_nil, hread, Option.some_inj] at hread'
  obtain ⟨rfl, -⟩ := Prod.mk.inj hread'
  exact ⟨hmajor.symm.trans hmajor', hn.symm.trans hn'⟩

/-! ### The writer -/

/-- A head with the argument in `2 ^ k` bytes, which have room for it. -/
theorem encodes_fixed (major : Major) {k : Nat} (hk : k < 4) {n : Nat} (hn : n < 256 ^ 2 ^ k) :
    Encodes major n (first major (UInt8.ofNat (24 + k)) :: Bytes.fixed (2 ^ k) n) := by
  rw [first_eq major (by omega)]
  exact .following hk (Bytes.length_fixed ..) (by rw [Bytes.toNat_fixed, Nat.mod_eq_of_lt hn])

/-- **What is written is a head.** -/
theorem encodes_bytes (major : Major) (n : UInt64) : Encodes major n.toNat (bytes major n) := by
  have hn : n.toNat < 2 ^ 64 := n.toNat_lt
  simp only [bytes, UInt64.lt_iff_toNat_lt, UInt64.reduceToNat]
  split_ifs with h24 h8 h16 h32
  · have hbyte : n.toUInt8 = UInt8.ofNat n.toNat := by
      rw [← UInt8.toNat_inj, UInt64.toNat_toUInt8, UInt8.toNat_ofNat']
    rw [hbyte, first_eq major (by omega)]
    exact .within h24
  · exact encodes_fixed major (k := 0) (by decide) h8
  · exact encodes_fixed major (k := 1) (by decide) h16
  · exact encodes_fixed major (k := 2) (by decide) h32
  · exact encodes_fixed major (k := 3) (by decide) hn

/-- What is written takes no more bytes than any form with room for the argument. -/
theorem length_bytes_le (major : Major) (n : UInt64) :
    (n.toNat < 24 → (bytes major n).length = 1) ∧
      ∀ k < 4, n.toNat < 256 ^ 2 ^ k → (bytes major n).length ≤ 1 + 2 ^ k := by
  constructor
  · intro h
    simp [bytes, UInt64.lt_iff_toNat_lt, h]
  · intro k hk h
    have hwidth : k = 0 ∨ k = 1 ∨ k = 2 ∨ k = 3 := by omega
    simp only [bytes, UInt64.lt_iff_toNat_lt, UInt64.reduceToNat]
    rcases hwidth with rfl | rfl | rfl | rfl <;> simp only [Nat.reducePow] at h <;> split_ifs <;>
      simp only [List.length_cons, List.length_nil, Bytes.length_fixed] <;> omega

/-- **No form is shorter** than what is written. -/
theorem Encodes.length_le {n : UInt64} (h : Encodes major n.toNat bs) :
    (bytes major n).length ≤ bs.length := by
  obtain ⟨hwithin, hfollowing⟩ := length_bytes_le major n
  cases h with
  | within h => exact (hwithin h).le
  | @following k bs hk hlen hn =>
    have hroom : n.toNat < 256 ^ 2 ^ k := by
      rw [← hn, ← hlen]
      exact Bytes.toNat_lt bs
    rw [List.length_cons, hlen, Nat.add_comm]
    exact hfollowing k hk hroom

/-- Two forms of one head differ in length. -/
theorem Encodes.eq_of_length_eq {bs' : Bytes} (h : Encodes major n bs) (h' : Encodes major n bs')
    (hlen : bs.length = bs'.length) : bs = bs' := by
  cases h with
  | within _ =>
    cases h' with
    | within _ => rfl
    | @following k cs _ hlen' _ =>
      have := Nat.two_pow_pos k
      simp only [List.length_cons, List.length_nil] at hlen
      omega
  | @following k cs _ hcs hn =>
    have := Nat.two_pow_pos k
    cases h' with
    | within _ =>
      simp only [List.length_cons, List.length_nil] at hlen
      omega
    | @following k' cs' _ hcs' hn' =>
      have hlen' : cs.length = cs'.length := Nat.succ_inj.mp hlen
      have hpow : 2 ^ k = 2 ^ k' := hcs.symm.trans (hlen'.trans hcs')
      rw [Nat.pow_right_injective le_rfl hpow, Bytes.eq_of_toNat_eq_of_length_eq hlen' (hn.trans hn'.symm)]

/-! ### The theorem -/

/-- **A head is found again, and no form of it is shorter.** The bytes that an encoder writes for a head
are read back as the major type and the argument, whatever follows. The byte strings that are read so
are the heads with them; of these the written one is the shortest, and the only one of its length. Of two
different heads that were written neither is the start of the other. -/
theorem bytes_invertible_shortest (major : Major) (n : UInt64) :
    (∀ (call : View → Value → Run) (view : View) (s : State), s.sink.room = none →
      ∃ t, Op.run call view (.head major n) s = (.done, t) ∧
        t.sink.bytes = s.sink.bytes ++ bytes major n) ∧
    (∀ rest, ∃ r : Reading, read? (bytes major n ++ rest) = some (r, rest) ∧ r.Tells major n.toNat) ∧
    (∀ bs rest, (∃ r : Reading, read? bs = some (r, rest) ∧ r.Tells major n.toNat) ↔
      ∃ head, Encodes major n.toNat head ∧ bs = head ++ rest) ∧
    (∀ bs, Encodes major n.toNat bs → bs ≠ bytes major n → (bytes major n).length < bs.length) ∧
    ∀ (major' : Major) (n' : UInt64), (major', n') ≠ (major, n) →
      ¬bytes major n <+: bytes major' n' ∧ ¬bytes major' n' <+: bytes major n := by
  have hwritten := encodes_bytes major n
  refine ⟨fun call view s hroom => ?_, hwritten.read?, fun bs rest => read?_eq_some_iff, fun bs h hne => ?_,
    fun major' n' hne => ⟨fun hp => hne ?_, fun hp => hne ?_⟩⟩
  · exact ⟨s.record (.wrote (bytes major n)), State.put_eq hroom _, State.bytes_record s _⟩
  · refine lt_of_le_of_ne h.length_le fun hlen => hne ?_
    exact h.eq_of_length_eq hwritten hlen.symm
  · obtain ⟨rfl, hn⟩ := hwritten.eq_of_isPrefix (encodes_bytes major' n') hp
    rw [UInt64.toNat_inj.mp hn]
  · obtain ⟨rfl, hn⟩ := (encodes_bytes major' n').eq_of_isPrefix hwritten hp
    rw [UInt64.toNat_inj.mp hn]

/-- At the end of a class: the head of 65535 items takes three bytes, in the next form five, and the
head of 65536 items does not begin with it. -/
theorem bytes_invertible_shortest_at_limit :
    let wide : Bytes := [0x9A, 0, 0, 255, 255]
    bytes .array 65535 = [0x99, 255, 255] ∧ Encodes .array (65535 : UInt64).toNat wide ∧
      (bytes .array 65535).length < wide.length ∧ ¬bytes .array 65535 <+: bytes .array 65536 := by
  intro wide
  have hwide : Encodes .array (65535 : UInt64).toNat wide :=
    @Encodes.following .array _ 2 [0, 0, 255, 255] (by decide) rfl (by decide)
  obtain ⟨-, -, -, hshortest, hstart⟩ := bytes_invertible_shortest .array 65535
  exact ⟨by decide, hwide, hshortest wide hwide (by decide), (hstart .array 65536 (by decide)).1⟩

end Head

end CborGraph
