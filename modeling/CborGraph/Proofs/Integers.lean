import CborGraph.Data
import CborGraph.Proofs.Frame
import CborGraph.Proofs.HeadReader
import CborGraph.Proofs.Magnitude
import CborGraph.Proofs.ScalarRun

/-!
# The form of integers

An integer has one form, however a value came to hold it: `Value.Holds` are the ways, and
`Item.ofInt` is the form. What is written does not depend on where the value stands, so the runs
here start from any state of the encoder whose sink has no limit; see `Run.Emits`.

Main statement: `encode_integer_canonical`. The argument of an integer that is kept in bytes is
calculated on the bytes, that of any other by subtraction; they agree by `Op.bigInt_eq`.
-/

namespace CborGraph

/-! ### Ways to hold an integer -/

/-- The ways in which a value comes to hold an integer. -/
inductive Value.Holds : Value → Int → Prop
  /-- It is an integer that 128 bits hold. -/
  | integer {z} (h : FitsSigned 128 z) : Holds (.integer z) z
  /-- It was read from a literal: a sign, if there is one, and digits. -/
  | literal {s n negative digits} (hparse : BigInt.parse s = .ok n)
      (hs : Literal.sign s.toList = (negative, digits)) :
      Holds (.bigInt n) (if negative then -(Literal.numeral digits : Int) else Literal.numeral digits)
  /-- It was made from a sign and an absolute value in bytes, perhaps with leading zeros. -/
  | magnitude (negative : Bool) (bs : Bytes) :
      Holds (.bigInt (.ofBytes negative bs)) (if negative then -(Bytes.toNat bs : Int) else Bytes.toNat bs)
  /-- A machine word of at most 128 bits, with or without a sign, was converted to bytes. -/
  | converted {z} (h : -2 ^ 127 ≤ z ∧ z < 2 ^ 128) : Holds (.bigInt (.ofInt z)) z
  /-- A machine word was converted to a value. -/
  | word {z} (h : -2 ^ 127 ≤ z ∧ z < 2 ^ 128) : Holds (.ofInt z) z
  /-- A machine word was serialised. -/
  | serialised {z layout g v g'} (h : -2 ^ 127 ≤ z ∧ z < 2 ^ 128)
      (hv : (Data.integer z).toValue layout g = .ok (v, g')) : Holds v z

namespace Value

/-- A value that holds an integer is the integer itself or one in bytes. -/
theorem Holds.cases {v : Value} {z : Int} (h : v.Holds z) :
    v = .integer z ∨ ∃ n : BigInt, v = .bigInt n ∧ n.toInt = z := by
  have hword : ∀ z, Value.ofInt z = .integer z ∨ ∃ n : BigInt, Value.ofInt z = .bigInt n ∧ n.toInt = z := by
    intro z
    unfold Value.ofInt
    split
    · exact .inl rfl
    · exact .inr ⟨_, rfl, BigInt.toInt_ofInt z⟩
  cases h with
  | integer _ => exact .inl rfl
  | literal hparse hs => exact .inr ⟨_, rfl, BigInt.toInt_of_parse hparse hs⟩
  | magnitude negative bs => exact .inr ⟨_, rfl, BigInt.toInt_ofBytes negative bs⟩
  | converted _ => exact .inr ⟨_, rfl, BigInt.toInt_ofInt z⟩
  | word _ => exact hword z
  | serialised _ hv =>
    cases hv
    exact hword z

end Value

/-! ### Runs from any state -/

/-- From any state whose sink has no limit, the run comes to its end and writes the bytes. -/
def Run.Emits (r : Run) (bs : Bytes) : Prop :=
  ∀ s : State, s.sink.room = none →
    ∃ t, r s = (.done, t) ∧ t.sink.room = none ∧ t.sink.bytes = s.sink.bytes ++ bs

section Emits

variable {call : View → Value → Run} {view : View} {bs cs : Bytes}

theorem emits_write (bs : Bytes) : Run.Emits (Op.run call view (.write bs)) bs := fun s hs =>
  ⟨s.record (.wrote bs), State.put_eq hs _, hs, State.bytes_record s _⟩

theorem emits_nil : Run.Emits (Op.runAll call view []) [] := fun s hs =>
  ⟨s, rfl, hs, (List.append_nil _).symm⟩

theorem emits_cons {op : Op} {ops : List Op} (h : Run.Emits (Op.run call view op) bs)
    (hs : Run.Emits (Op.runAll call view ops) cs) :
    Run.Emits (Op.runAll call view (op :: ops)) (bs ++ cs) := by
  intro s hroom
  obtain ⟨t, ht, htroom, htbytes⟩ := h s hroom
  obtain ⟨u, hu, huroom, hubytes⟩ := hs t htroom
  refine ⟨u, ?_, huroom, by rw [hubytes, htbytes, List.append_assoc]⟩
  rw [Op.runAll, ht]
  exact hu

theorem emits_singleton {op : Op} (h : Run.Emits (Op.run call view op) bs) :
    Run.Emits (Op.runAll call view [op]) bs := by
  have hnil : Run.Emits (Op.runAll call view []) [] := emits_nil
  have hcons := emits_cons h hnil
  rwa [List.append_nil] at hcons

theorem emits_value {v : Value} (h : Run.Emits (call view v) bs) :
    Run.Emits (Op.run call view (.value v)) bs := h

/-- A call writes what the function of the value writes, at any depth. -/
theorem emits_encodeValue {settings : Settings} {limit : Nat} {v : Value} {key : TypeKey} {b : Builtin}
    (h : view.builtin? v = some (key, b))
    (hops : Run.Emits (Op.runAll (encodeValue builtinTable settings limit) view (b.ops settings view v)) bs) :
    Run.Emits (encodeValue builtinTable settings (limit + 1) view v) bs := by
  intro s hroom
  have hfound : builtinTable.resolve view v = some (key, b.ops) := by
    rw [resolve_builtinTable, h, Option.map_some]
  have hinside : (s.beginDocument.descend (view.typeKey v) key).sink.room = none := by
    rw [← hroom, ← s.sink_beginDocument]
    rfl
  obtain ⟨t, ht, htroom, htbytes⟩ := hops _ hinside
  rw [State.bytes_descend, State.sink_beginDocument] at htbytes
  refine ⟨t.ascend, ?_, htroom, htbytes⟩
  rw [encodeValue_of_some hfound, ht]

end Emits

/-! ### Integers -/

section Integers

variable {settings : Settings} {view : View} {limit : Nat}

theorem emits_bytes (bs : Bytes) :
    Run.Emits (encodeValue builtinTable settings (limit + 1) view (.bytes bs))
      (Head.ofLength .bytes bs.length ++ bs) := by
  refine emits_encodeValue (b := .bytes) rfl ?_
  exact emits_cons (emits_write _) (emits_singleton (emits_write _))

/-- The operations of an integer write its form. -/
theorem emits_integerOps (z : Int) :
    Run.Emits (Op.runAll (encodeValue builtinTable settings (limit + 1)) view (Op.integer z))
      ((Item.ofInt z).wire settings.compactFloats) := by
  rw [wire_ofInt]
  simp only [Op.integer]
  rw [← BigInt.argumentOf]
  split
  · exact emits_singleton (emits_write _)
  · rw [Op.bignum, Bytes.stripZeros_of_head (Bytes.head?_ofNat _)]
    exact emits_cons (emits_write _) (emits_singleton (emits_value (emits_bytes _)))

/-- **A value that holds an integer is written in the form of the integer**, from any state. -/
theorem Value.Holds.emits {v : Value} {z : Int} (h : v.Holds z) :
    Run.Emits (encodeValue builtinTable settings (limit + 2) view v)
      ((Item.ofInt z).wire settings.compactFloats) := by
  rcases h.cases with rfl | ⟨n, rfl, rfl⟩
  · exact emits_encodeValue (b := .integer) rfl (emits_integerOps z)
  · refine emits_encodeValue (b := .bigInt) rfl ?_
    rw [show Builtin.bigInt.ops settings view (.bigInt n) = Op.bigInt n from rfl, Op.bigInt_eq]
    exact emits_integerOps n.toInt

end Integers

/-! ### The form -/

/-- The integer is found again from its sign and its argument. -/
theorem BigInt.eq_of_argumentOf_eq {z z' : Int} (hsign : z < 0 ↔ z' < 0)
    (h : argumentOf z = argumentOf z') : z = z' := by
  unfold argumentOf at h
  split_ifs at h <;> omega

theorem Op.integerMajor_injective : Function.Injective Op.integerMajor := by
  unfold Function.Injective
  decide

theorem Op.bignumTag_injective : Function.Injective Op.bignumTag := by
  unfold Function.Injective
  decide

/-- **Distinct integers have distinct forms**, also if their bytes are more than a head can count. -/
theorem wire_ofInt_injective {compact compact' : Bool} {z z' : Int}
    (h : (Item.ofInt z).wire compact = (Item.ofInt z').wire compact') : z = z' := by
  have hmajor : ∀ b, Op.integerMajor b ≠ .tag := by decide
  rw [wire_ofInt, wire_ofInt] at h
  split_ifs at h with hsmall hsmall' hsmall'
  · obtain ⟨hsign, harg, -⟩ := Head.bytes_append_inj (congrArg (· ++ []) h)
    have hnat := congrArg UInt64.toNat harg
    rw [UInt64.toNat_ofNat_of_lt' hsmall, UInt64.toNat_ofNat_of_lt' hsmall'] at hnat
    exact BigInt.eq_of_argumentOf_eq (decide_eq_decide.mp (Op.integerMajor_injective hsign)) hnat
  · rw [← List.append_nil (Head.bytes (Op.integerMajor _) _)] at h
    exact absurd (Head.bytes_append_inj h).1 (hmajor _)
  · rw [← List.append_nil (Head.bytes (Op.integerMajor _) _)] at h
    exact absurd (Head.bytes_append_inj h).1.symm (hmajor _)
  · obtain ⟨-, htag, hbytes⟩ := Head.bytes_append_inj h
    obtain ⟨-, -, hnumeral⟩ := Head.bytes_append_inj hbytes
    have hnat := congrArg Bytes.toNat hnumeral
    rw [Bytes.toNat_ofNat, Bytes.toNat_ofNat] at hnat
    exact BigInt.eq_of_argumentOf_eq (decide_eq_decide.mp (Op.bignumTag_injective htag)) hnat

section Form

variable (compact : Bool) {z : Int}

theorem wire_ofInt_unsigned (h : 0 ≤ z) (hlt : z < 2 ^ 64) :
    (Item.ofInt z).wire compact = Head.bytes .unsigned (UInt64.ofNat z.toNat) := by
  rw [Item.ofInt, if_pos h, if_pos hlt, Item.wire, Head.ofLength]

theorem wire_ofInt_negative (h : -2 ^ 64 ≤ z) (hlt : z < 0) :
    (Item.ofInt z).wire compact = Head.bytes .negative (UInt64.ofNat (-1 - z).toNat) := by
  rw [Item.ofInt, if_neg (by omega), if_pos h, Item.wire, Head.ofLength]

/-- The form of an integer that is too large for a head. -/
theorem wire_ofInt_positiveBignum (h : 2 ^ 64 ≤ z) :
    ∃ bs : Bytes, bs.head? ≠ some 0 ∧ (Bytes.toNat bs : Int) = z ∧
      (Item.ofInt z).wire compact =
        Head.bytes .tag Tag.positiveBignum ++ (Head.ofLength .bytes bs.length ++ bs) := by
  refine ⟨Bytes.ofNat z.toNat, Bytes.head?_ofNat _, ?_, ?_⟩
  · rw [Bytes.toNat_ofNat]
    omega
  · rw [Item.ofInt, if_pos (by omega), if_neg (by omega), Item.wire, Item.wire, Head.ofLength,
      UInt64.ofNat_toNat]

/-- The form of an integer that is too small for a head. -/
theorem wire_ofInt_negativeBignum (h : z < -2 ^ 64) :
    ∃ bs : Bytes, bs.head? ≠ some 0 ∧ (Bytes.toNat bs : Int) = -1 - z ∧
      (Item.ofInt z).wire compact =
        Head.bytes .tag Tag.negativeBignum ++ (Head.ofLength .bytes bs.length ++ bs) := by
  refine ⟨Bytes.ofNat (-1 - z).toNat, Bytes.head?_ofNat _, ?_, ?_⟩
  · rw [Bytes.toNat_ofNat]
    omega
  · rw [Item.ofInt, if_neg (by omega), if_neg (by omega), Item.wire, Item.wire, Head.ofLength,
      UInt64.ofNat_toNat]

end Form

/-- **Integers have one form.** However a value came to hold an integer and wherever it stands,
without entries of the caller the same bytes are written for it: a head with the integer, or
with `-1 - z` for a negative one, and if that does not fit, a tag around the byte string of the
number with no leading zero. No two integers have the same bytes, and to encode an integer
that is kept in bytes is to encode the integer. -/
theorem encode_integer_canonical {o : Options} (ho : o.overrides = []) {v : Value} {z : Int}
    (h : v.Holds z) :
    (∀ (view : View) (limit : Nat) (s : State), 2 ≤ limit → s.sink.room = none →
      ∃ t, encodeValue o.table o.toSettings limit view v s = (.done, t) ∧
        t.sink.bytes = s.sink.bytes ++ (Item.ofInt z).wire o.compactFloats) ∧
    (∀ compact : Bool,
      (0 ≤ z → z < 2 ^ 64 →
        (Item.ofInt z).wire compact = Head.bytes .unsigned (UInt64.ofNat z.toNat)) ∧
      (-2 ^ 64 ≤ z → z < 0 →
        (Item.ofInt z).wire compact = Head.bytes .negative (UInt64.ofNat (-1 - z).toNat)) ∧
      (2 ^ 64 ≤ z → ∃ bs : Bytes, bs.head? ≠ some 0 ∧ (Bytes.toNat bs : Int) = z ∧
        (Item.ofInt z).wire compact =
          Head.bytes .tag Tag.positiveBignum ++ (Head.ofLength .bytes bs.length ++ bs)) ∧
      (z < -2 ^ 64 → ∃ bs : Bytes, bs.head? ≠ some 0 ∧ (Bytes.toNat bs : Int) = -1 - z ∧
        (Item.ofInt z).wire compact =
          Head.bytes .tag Tag.negativeBignum ++ (Head.ofLength .bytes bs.length ++ bs))) ∧
    (∀ (compact compact' : Bool) (z' : Int),
      (Item.ofInt z).wire compact = (Item.ofInt z').wire compact' → z = z') ∧
    ∀ i : Int, Op.bigInt (.ofInt i) = Op.integer i := by
  refine ⟨fun view limit s hl hroom => ?_, fun compact => ⟨?_, ?_, ?_, ?_⟩, ?_, fun i => ?_⟩
  · obtain ⟨limit, rfl⟩ := Nat.exists_eq_add_of_le' hl
    have hemits : Run.Emits (encodeValue builtinTable o.toSettings (limit + 2) view v) _ := h.emits
    obtain ⟨t, ht, -, hbytes⟩ := hemits s hroom
    rw [o.table_of_overrides ho]
    exact ⟨t, ht, hbytes⟩
  · exact wire_ofInt_unsigned compact
  · exact wire_ofInt_negative compact
  · exact wire_ofInt_positiveBignum compact
  · exact wire_ofInt_negativeBignum compact
  · exact fun _ _ _ => wire_ofInt_injective
  · rw [Op.bigInt_eq, BigInt.toInt_ofInt]

/-- The least integer that a head has room for, from nine bytes and one leading zero: its argument
is a byte shorter. -/
theorem encode_integer_canonical_least :
    let v : Value := .bigInt (.ofBytes true [0, 1, 0, 0, 0, 0, 0, 0, 0, 0])
    ({} : Options).overrides = [] ∧ v.Holds (-2 ^ 64) ∧
      ∀ (view : View) (s : State), s.sink.room = none →
        ∃ t, encodeValue ({} : Options).table {} 2 view v s = (.done, t) ∧
          t.sink.bytes = s.sink.bytes ++ [0x3B, 255, 255, 255, 255, 255, 255, 255, 255] := by
  intro v
  have hv : v.Holds (-2 ^ 64) := .magnitude true _
  obtain ⟨hwrites, hform, -⟩ := encode_integer_canonical (o := {}) rfl hv
  refine ⟨rfl, hv, fun view s hroom => ?_⟩
  obtain ⟨t, ht, hbytes⟩ := hwrites view 2 s le_rfl hroom
  refine ⟨t, ht, hbytes.trans ?_⟩
  rw [(hform false).2.1 le_rfl (by decide)]
  rfl

end CborGraph
