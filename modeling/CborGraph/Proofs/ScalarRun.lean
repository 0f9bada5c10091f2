import CborGraph.Proofs.Run

/-!
# How scalars are written

Main statement: `writes_scalar`, a scalar is encoded as the bytes of its item, by calls
nested no deeper than `scalarDepth`. An integer kept in bytes is written as the integer that
it is, `Op.bigInt_eq`. The array of a decimal or a rational is numbered by the next number, so
it is not among the containers that are open, and with sharing off it is not marked.
-/

namespace CborGraph

variable {settings : Settings} {view : View} {limit : Nat}

/-! ### Integers -/

namespace Op

/-- **An integer kept in bytes is written as the integer.** -/
theorem bigInt_eq (n : BigInt) : bigInt n = integer n.toInt := by
  have hneg : n.negative = decide (n.toInt < 0) := by
    rw [Bool.eq_iff_iff, decide_eq_true_iff]
    exact n.toInt_neg_iff.symm
  have harg : n.argument = Bytes.ofNat (BigInt.argumentOf n.toInt) := n.argument_eq
  have hlen : n.argument.length ≤ 8 ↔ BigInt.argumentOf n.toInt < 2 ^ 64 := by
    rw [harg]
    exact Bytes.length_ofNat_le_iff ..
  rw [bigInt, harg, Bytes.toNat_ofNat, ← harg, hneg]
  simp only [hlen]
  rw [harg]
  rfl

end Op

/-- The bytes of an integer: a head, or a tag around a byte string. -/
theorem wire_ofInt (compact : Bool) (i : Int) :
    (Item.ofInt i).wire compact =
      if BigInt.argumentOf i < 2 ^ 64 then
        Head.bytes (Op.integerMajor (i < 0)) (UInt64.ofNat (BigInt.argumentOf i))
      else
        Head.bytes .tag (Op.bignumTag (i < 0)) ++
          (Item.bytes (Bytes.ofNat (BigInt.argumentOf i))).wire compact := by
  rw [Item.ofInt, BigInt.argumentOf]
  by_cases h0 : 0 ≤ i
  · have hneg : ¬ i < 0 := by omega
    rw [if_pos h0, if_neg hneg, decide_eq_false hneg]
    by_cases h : i < 2 ^ 64
    · rw [if_pos h, if_pos (by omega)]
      rfl
    · rw [if_neg h, if_neg (by omega)]
      rfl
  · have hneg : i < 0 := by omega
    rw [if_neg h0, if_pos hneg, decide_eq_true hneg]
    by_cases h : -2 ^ 64 ≤ i
    · rw [if_pos h, if_pos (by omega)]
      rfl
    · rw [if_neg h, if_neg (by omega)]
      rfl

theorem writes_bytes (bs : Bytes) :
    Writes (encodeValue builtinTable settings (limit + 1) view (.bytes bs))
      ((Item.bytes bs).wire settings.compactFloats) :=
  writes_encodeValue (b := .bytes) rfl (writes_cons (writes_write _) (writes_singleton (writes_write _)))

theorem writes_text (s : String) :
    Writes (encodeValue builtinTable settings (limit + 1) view (.text s))
      ((Item.text s).wire settings.compactFloats) :=
  writes_encodeValue (b := .text) rfl (writes_cons (writes_write _) (writes_singleton (writes_write _)))

/-- The operations of an integer write its item. -/
theorem writes_integerOps (i : Int) :
    Writes (Op.runAll (encodeValue builtinTable settings (limit + 1)) view (Op.integer i))
      ((Item.ofInt i).wire settings.compactFloats) := by
  rw [wire_ofInt]
  simp only [Op.integer]
  rw [← BigInt.argumentOf]
  split
  · exact writes_singleton (writes_write _)
  · rw [Op.bignum, Bytes.stripZeros_of_head (Bytes.head?_ofNat _)]
    exact writes_semantic (writes_bytes _)

theorem writes_integer (i : Int) :
    Writes (encodeValue builtinTable settings (limit + 2) view (.integer i))
      ((Item.ofInt i).wire settings.compactFloats) :=
  writes_encodeValue (b := .integer) rfl (writes_integerOps i)

theorem writes_bigInt (n : BigInt) :
    Writes (encodeValue builtinTable settings (limit + 2) view (.bigInt n))
      ((Item.ofInt n.toInt).wire settings.compactFloats) := by
  refine writes_encodeValue (b := .bigInt) rfl ?_
  rw [show Builtin.bigInt.ops settings view (.bigInt n) = Op.bigInt n from rfl, Op.bigInt_eq]
  exact writes_integerOps n.toInt

/-! ### Floats -/

theorem item_quiet (compact : Bool) (x : Binary64) : x.quiet.item compact = x.item compact := by
  rw [Binary64.quiet]
  split
  · next h =>
    rw [Binary64.item, Binary64.item, if_pos h]
    rfl
  · rfl

theorem writes_float (x : Binary64) :
    Writes (encodeValue builtinTable settings (limit + 1) view (.float x))
      ((Item.float x.quiet).wire settings.compactFloats) := by
  refine writes_encodeValue (b := .float) rfl ?_
  rw [Item.wire, item_quiet]
  exact writes_singleton (writes_write _)

/-! ### Arrays of two -/

/-- A new array of two values, with sharing off. -/
theorem writes_pair {a b : Value} {as bs : Bytes}
    (ha : ∀ view, Writes (encodeValue builtinTable settings limit view a) as)
    (hb : ∀ view, Writes (encodeValue builtinTable settings limit view b) bs) :
    Writes
      (Op.run (encodeValue builtinTable settings (limit + 1)) view
        (.suspended [.encode (.array [.known a, .known b])]))
      (Head.ofLength .array 2 ++ (as ++ bs)) := by
  intro s hs
  let view' := view.extend s.next #[.array [a, b]]
  let s' : State := { s with sharing := false, next := s.next + 1 }
  have hs' : s'.Ready := ⟨hs.room, hs.fresh, fun n hn => Nat.lt_succ_of_lt (hs.unopened n hn)⟩
  have hc : view'.contents? (.temporary s.next) = some (.items [a, b]) := by
    simp [view', View.contents?, View.extend, Cell.contents?]
  -- The array is numbered by the next number, and open containers have earlier ones.
  have hid : .temporary s.next ∉ s'.opened := fun hn => lt_irrefl _ (hs.unopened _ hn)
  obtain ⟨key, found, hrun⟩ := encodeValue_enter settings limit hc (Nat.succ_ne_zero 1) hs' hid
  have hnew : ∀ n, Ident.temporary s.next = .temporary n → n < s.next + 1 := by
    intro n hn
    cases hn
    exact Nat.lt_succ_self _
  have hbody : Writes (Op.runAll (encodeValue builtinTable settings limit) view' [.value a, .value b])
      (as ++ bs) := writes_cons (writes_value (ha view')) (writes_singleton (writes_value (hb view')))
  have hinside : (s'.inside key found (.temporary s.next) .array 2).Ready := hs'.inside hid hnew
  obtain ⟨t, ht, hwrote⟩ := hbody _ hinside
  rw [State.marks_inside] at hwrote
  have hout := hwrote.outside hid
  refine ⟨{ (t.leave (.temporary s.next)).ascend with sharing := s.sharing }, ?_, ?_⟩
  · have hcall : Op.run (encodeValue builtinTable settings (limit + 1)) view
        (.suspended [.encode (.array [.known a, .known b])]) s =
        let r := encodeValue builtinTable settings (limit + 1) view' (.container (.temporary s.next)) s'
        (r.1, { r.2 with sharing := s.sharing }) := by
      rw [Op.run, runAll_singleton]
      rfl
    have hvalues : (Contents.items [a, b]).values.map Op.value = [.value a, .value b] := rfl
    rw [hcall, hrun, hvalues]
    exact congrArg (fun r => (r.1, { (r.2.leave (.temporary s.next)).ascend with sharing := s.sharing })) ht
  · exact ⟨hout.bytes, hout.room, hout.marks, rfl, hout.opened, hout.depth,
      le_trans (Nat.le_succ _) hout.next⟩

/-! ### Tagged items -/

theorem wire_tag (compact : Bool) (number : UInt64) (item : Item) :
    (Item.tag number.toNat item).wire compact = Head.bytes .tag number ++ item.wire compact := by
  rw [Item.wire, Head.ofLength, UInt64.ofNat_toNat]

theorem wire_pair (compact : Bool) (a b : Item) :
    (Item.array [a, b]).wire compact =
      Head.ofLength .array 2 ++ (a.wire compact ++ b.wire compact) := by
  rw [Item.wire, Item.wireAll, Item.wireAll_singleton]
  rfl

/-- A tag around two integers in an array of their own. -/
theorem writes_tagged_pair (number : UInt64) {a b : Value} {i j : Item}
    (ha : ∀ view, Writes (encodeValue builtinTable settings limit view a) (i.wire settings.compactFloats))
    (hb : ∀ view, Writes (encodeValue builtinTable settings limit view b) (j.wire settings.compactFloats)) :
    Writes
      (Op.runAll (encodeValue builtinTable settings (limit + 1)) view
        (Op.semantic number (.array [.known a, .known b]) true))
      ((Item.tag number.toNat (.array [i, j])).wire settings.compactFloats) := by
  rw [wire_tag, wire_pair]
  exact writes_cons (writes_write _) (writes_singleton (writes_pair ha hb))

/-- A tag around a value. -/
theorem writes_tagged (number : UInt64) {v : Value} {i : Item}
    (h : Writes (encodeValue builtinTable settings limit view v) (i.wire settings.compactFloats)) :
    Writes (Op.runAll (encodeValue builtinTable settings limit) view (Op.semantic number (.known v) false))
      ((Item.tag number.toNat i).wire settings.compactFloats) := by
  rw [wire_tag]
  exact writes_semantic h

/-- The operations of a date and time write its item. -/
theorem writes_dateTimeOps (t : DateTime) :
    Writes (Op.runAll (encodeValue builtinTable settings (limit + 2)) view (Op.dateTime settings t))
      ((settings.dateTimeItem t).wire settings.compactFloats) := by
  rw [Op.dateTime, Settings.dateTimeItem]
  split
  · refine writes_tagged _ ?_
    rw [Op.timestamp]
    split
    · exact writes_integer _
    · exact writes_float _
  · exact writes_tagged _ (writes_text _)

/-- The operations of a decimal number write its item. -/
theorem writes_decimalOps (d : Decimal) :
    Writes (Op.runAll (encodeValue builtinTable settings (limit + 3)) view (Op.decimal d))
      ((Settings.decimalItem d).wire settings.compactFloats) := by
  cases d with
  | finite mantissa exponent =>
    exact writes_tagged_pair Tag.decimalFraction (fun _ => writes_integer _) (fun _ => writes_bigInt _)
  | nan => exact writes_singleton (writes_write _)
  | infinity =>
    have h : (⟨0x7FF0000000000000⟩ : Binary64).item settings.compactFloats =
        Binary64.infinityItem false := rfl
    rw [Settings.decimalItem, Item.wire, h]
    exact writes_singleton (writes_write _)
  | negInfinity =>
    have h : (⟨0xFFF0000000000000⟩ : Binary64).item settings.compactFloats =
        Binary64.infinityItem true := rfl
    rw [Settings.decimalItem, Item.wire, h]
    exact writes_singleton (writes_write _)

/-! ### Scalars -/

/-- How deep the calls for a scalar are nested: a decimal, its array, an integer and its
bytes. -/
def scalarDepth : Nat := 4

/-- **A scalar is written as its item.** -/
theorem writes_scalar {v : Value} {item : Item} (h : settings.item? v = some item)
    (hl : scalarDepth ≤ limit) :
    Writes (encodeValue builtinTable settings limit view v) (item.wire settings.compactFloats) := by
  obtain ⟨limit, rfl⟩ := Nat.exists_eq_add_of_le' hl
  rw [scalarDepth]
  cases v with
  | null =>
    cases h
    exact writes_encodeValue (b := .null) rfl (writes_singleton (writes_write _))
  | undefined =>
    cases h
    exact writes_encodeValue (b := .undefined) rfl (writes_singleton (writes_write _))
  | bool b =>
    cases h
    refine writes_encodeValue (b := .bool) rfl ?_
    cases b <;> exact writes_singleton (writes_write _)
  | integer i =>
    cases h
    exact writes_integer i
  | bigInt n =>
    cases h
    exact writes_bigInt n
  | float x =>
    cases h
    exact writes_float x
  | bytes bs =>
    cases h
    exact writes_bytes bs
  | text s =>
    cases h
    exact writes_text s
  | dateTime t =>
    cases h
    exact writes_encodeValue (b := .dateTime) rfl (writes_dateTimeOps t)
  | naiveDateTime t =>
    obtain ⟨u, hu, rfl⟩ := Option.map_eq_some_iff.mp h
    refine writes_encodeValue (b := .dateTime) rfl ?_
    rw [show Builtin.dateTime.ops settings view (.naiveDateTime t) = Op.naiveDateTime settings t from rfl,
      Op.naiveDateTime, hu]
    exact writes_dateTimeOps u
  | date d =>
    cases h
    exact writes_encodeValue (b := .date) rfl (writes_dateTimeOps _)
  | decimal d =>
    cases h
    exact writes_encodeValue (b := .decimal) rfl (writes_decimalOps d)
  | rational r =>
    cases h
    exact writes_encodeValue (b := .rational) rfl
      (writes_tagged_pair Tag.rational (fun _ => writes_integer _) (fun _ => writes_integer _))
  | regex pattern =>
    cases h
    exact writes_encodeValue (b := .regex) rfl (writes_tagged Tag.regex (writes_text _))
  | mime m =>
    cases h
    exact writes_encodeValue (b := .mime) rfl (writes_tagged Tag.mime (writes_text _))
  | uuid u =>
    cases h
    exact writes_encodeValue (b := .uuid) rfl (writes_tagged Tag.uuid (writes_bytes _))
  | tag number v => cases h
  | container id => cases h

/-- A date and time that has no place in UTC is refused. -/
theorem encodeValue_naiveDateTime {t : NaiveDateTime} (h : settings.timezone.bind t.at? = none)
    {s : State} (hs : s.Ready) :
    ∃ u, encodeValue builtinTable settings (limit + 1) view (.naiveDateTime t) s =
      (.failed .naiveDateTime, u) ∧ u.sink.bytes = s.sink.bytes := by
  refine ⟨(s.descend (.kind .naiveDateTime) (.kind .naiveDateTime)).ascend, ?_,
    State.bytes_descend s _ _⟩
  rw [encodeValue_of_builtin (b := .dateTime) rfl hs,
    show Builtin.dateTime.ops settings view (.naiveDateTime t) = Op.naiveDateTime settings t from rfl,
    Op.naiveDateTime, h]
  rfl

end CborGraph
