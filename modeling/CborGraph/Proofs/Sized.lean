import CborGraph.Proofs.Nesting

/-!
# Sizes

In memory lengths are numbers of 64 bits, and integers words of their widths. A graph and a
value that keep to that are `Sized`, and then their items have room in heads:
`Value.Sized.fits`. For a date and time there is nothing to ask, for its text is short,
`DateTime.length_isoText_le`.
-/

namespace CborGraph

/-! ### Sized values and graphs -/

/-- The lengths in the value are numbers of 64 bits, and its integers words of their widths. -/
def Value.Sized : Value → Prop
  | .integer i => FitsSigned 128 i
  | .bigInt n => n.magnitude.length < 2 ^ 64
  | .bytes bs => bs.length < 2 ^ 64
  | .text s => (Bytes.ofString s).length < 2 ^ 64
  | .decimal (.finite mantissa exponent) => mantissa.magnitude.length < 2 ^ 64 ∧ FitsSigned 64 exponent
  | .rational r => FitsSigned 128 r.numerator ∧ FitsSigned 128 r.denominator
  | .regex pattern => (Bytes.ofString pattern).length < 2 ^ 64
  | .mime m => (Bytes.ofString m.text).length < 2 ^ 64
  | .tag _ v => v.Sized
  | _ => True

/-- The number of containers, the lengths in them and their values are sized. -/
structure Graph.Sized (g : Graph) : Prop where
  size_lt : g.cells.size < 2 ^ 64
  length_lt : ∀ cell ∈ g.cells, ∀ c ∈ cell.contents?, c.length < 2 ^ 64
  values : ∀ cell ∈ g.cells, ∀ v ∈ cell.values, v.Sized

instance Value.decidableSized : ∀ v : Value, Decidable v.Sized
  | .integer i => inferInstanceAs (Decidable (FitsSigned 128 i))
  | .bigInt n => inferInstanceAs (Decidable (n.magnitude.length < 2 ^ 64))
  | .bytes bs => inferInstanceAs (Decidable (bs.length < 2 ^ 64))
  | .text s => inferInstanceAs (Decidable ((Bytes.ofString s).length < 2 ^ 64))
  | .decimal (.finite mantissa exponent) =>
    inferInstanceAs (Decidable (mantissa.magnitude.length < 2 ^ 64 ∧ FitsSigned 64 exponent))
  | .rational r =>
    inferInstanceAs (Decidable (FitsSigned 128 r.numerator ∧ FitsSigned 128 r.denominator))
  | .regex pattern => inferInstanceAs (Decidable ((Bytes.ofString pattern).length < 2 ^ 64))
  | .mime m => inferInstanceAs (Decidable ((Bytes.ofString m.text).length < 2 ^ 64))
  | .tag _ v => Value.decidableSized v
  | .null | .undefined | .bool _ | .float _ | .dateTime _ | .naiveDateTime _ | .date _
  | .decimal .nan | .decimal .infinity | .decimal .negInfinity | .uuid _ | .container _ =>
    inferInstanceAs (Decidable True)

instance (g : Graph) : Decidable g.Sized :=
  decidable_of_iff (g.cells.size < 2 ^ 64 ∧ (∀ cell ∈ g.cells, ∀ c ∈ cell.contents?, c.length < 2 ^ 64) ∧
    ∀ cell ∈ g.cells, ∀ v ∈ cell.values, v.Sized)
    ⟨fun ⟨h₁, h₂, h₃⟩ => ⟨h₁, h₂, h₃⟩, fun h => ⟨h.size_lt, h.length_lt, h.values⟩⟩

/-- What a container of a sized graph is read as. -/
theorem Graph.Sized.contents {g : Graph} (h : g.Sized) {id : Ident} {c : Contents}
    (hc : g.view.contents? id = some c) : c.length < 2 ^ 64 ∧ ∀ v ∈ c.values, v.Sized := by
  constructor
  · by_cases h0 : c.length = 0
    · rw [h0]
      decide
    · obtain ⟨i, cell, _, hi, hcell⟩ := g.exists_cell hc h0
      exact h.length_lt cell (Array.mem_of_getElem? hi) c hcell
  · intro v hv
    obtain ⟨cell, hcell, hv⟩ := g.exists_cell_of_mem hc hv
    exact h.values cell hcell v hv

/-! ### Integers -/

theorem fits_ofInt {i : Int} {k : Nat} (h : i.natAbs < 256 ^ k) (hk : k < 2 ^ 64) : (Item.ofInt i).Fits := by
  rw [Item.ofInt]
  split_ifs with h₁ h₂ h₂
  · rw [Item.Fits]
    omega
  · refine ⟨by decide, lt_of_le_of_lt ?_ hk⟩
    rw [Bytes.length_ofNat_le_iff]
    omega
  · rw [Item.Fits]
    omega
  · refine ⟨by decide, lt_of_le_of_lt ?_ hk⟩
    rw [Bytes.length_ofNat_le_iff]
    omega

theorem natAbs_lt_of_fitsSigned {i : Int} (h : FitsSigned 128 i) : i.natAbs < 256 ^ 16 := by
  simp only [FitsSigned] at h
  omega

theorem fits_integer {i : Int} (h : FitsSigned 128 i) : (Item.ofInt i).Fits :=
  fits_ofInt (natAbs_lt_of_fitsSigned h) (by decide)

theorem fits_bigInt {n : BigInt} (h : n.magnitude.length < 2 ^ 64) : (Item.ofInt n.toInt).Fits := by
  refine fits_ofInt ?_ h
  have := Bytes.toNat_lt n.magnitude
  rw [BigInt.toInt]
  split <;> omega

/-! ### Dates and times -/

theorem length_padded_le (width : Nat) {n : Nat} (k : Nat) (hk : 0 < k) (hn : n < 10 ^ k) :
    (Text.padded width n).length ≤ max width k := by
  have := (Nat.length_toDigits_le_iff (by decide) hk).mpr hn
  rw [Text.padded, List.length_append, List.length_replicate]
  omega

namespace Calendar

/-- The parts of a day that lies in reach are small. -/
theorem day_lt {n : Int} (h : n.natAbs < 10 ^ 8) :
    (Day.ofNumber n).year.natAbs < 10 ^ 6 ∧ (Day.ofNumber n).month < 10 ^ 6 ∧
      (Day.ofNumber n).day < 10 ^ 6 := by
  rw [Day.ofNumber]
  generalize hz : n + 719468 = z
  have hdoe := Int.emod_nonneg z (by decide : (146097 : Int) ≠ 0)
  have hdoe' := Int.emod_lt_of_pos z (by decide : (0 : Int) < 146097)
  simp only
  generalize z % 146097 = dayOfEra at *
  generalize hy : (dayOfEra - dayOfEra / 1460 + dayOfEra / 36524 - dayOfEra / 146096) / 365 = y
  refine ⟨?_, ?_, ?_⟩
  · split <;> omega
  · split <;> omega
  · omega

end Calendar

namespace DateTime

theorem length_yearText_le {year : Int} (h : year.natAbs < 10 ^ 6) : (yearText year).length ≤ 7 := by
  rw [yearText]
  split
  · have hn : year.toNat < 10 ^ 6 := by omega
    have := length_padded_le 4 6 (by decide) hn
    omega
  · have := length_padded_le 4 6 (by decide) h
    rw [List.length_cons]
    omega

theorem length_dayText_le (t : DateTime) : t.dayText.length ≤ 21 := by
  have hrange : (t.localSeconds / Calendar.daySeconds).natAbs < 10 ^ 8 := by
    have hday := t.inRange
    have hlower := t.offset.lower
    have hupper := t.offset.upper
    simp only [InDateRange, localSeconds, Calendar.firstDay, Calendar.lastDay, Calendar.daySeconds] at *
    omega
  obtain ⟨hyear, hmonth, hday⟩ := Calendar.day_lt hrange
  have h₁ := length_yearText_le hyear
  have h₂ := length_padded_le 2 6 (by decide) hmonth
  have h₃ := length_padded_le 2 6 (by decide) hday
  simp only [dayText, List.length_append, List.length_cons]
  omega

theorem length_timeText_le (t : DateTime) : t.timeText.length ≤ 8 := by
  have hpos : 0 < Calendar.daySeconds := by decide
  have hn : (t.localSeconds % Calendar.daySeconds).toNat < 86400 := by
    have := Int.emod_lt_of_pos t.localSeconds hpos
    rw [Calendar.daySeconds] at *
    omega
  have hnanos := t.nanos_lt
  rw [leapNanos] at hnanos
  rw [timeText]
  generalize (t.localSeconds % Calendar.daySeconds).toNat = n at *
  have h₁ : n / 3600 < 10 ^ 2 := by omega
  have h₂ : n / 60 % 60 < 10 ^ 2 := by omega
  have h₃ : n % 60 + t.nanos / 1000000000 < 10 ^ 2 := by omega
  have h₁ := length_padded_le 2 2 (by decide) h₁
  have h₂ := length_padded_le 2 2 (by decide) h₂
  have h₃ := length_padded_le 2 2 (by decide) h₃
  simp only [List.length_append, List.length_cons]
  omega

theorem length_fractionText_le (t : DateTime) : t.fractionText.length ≤ 8 := by
  have hmicros : t.micros < 10 ^ 7 := by
    have := t.nanos_lt
    rw [leapNanos] at this
    rw [micros]
    omega
  have := length_padded_le 6 7 (by decide) hmicros
  rw [fractionText]
  split
  · exact Nat.zero_le 8
  · rw [List.length_cons]
    omega

end DateTime

theorem Offset.length_zone_le (o : Offset) : o.zone.length ≤ 9 := by
  have hlower := o.lower
  have hupper := o.upper
  rw [Calendar.daySeconds] at hlower hupper
  have h₁ : o.seconds.natAbs / 3600 < 10 ^ 2 := by omega
  have h₂ : o.seconds.natAbs / 60 % 60 < 10 ^ 2 := by omega
  have h₃ : o.seconds.natAbs % 60 < 10 ^ 2 := by omega
  have h₁ := length_padded_le 2 2 (by decide) h₁
  have h₂ := length_padded_le 2 2 (by decide) h₂
  have h₃ := length_padded_le 2 2 (by decide) h₃
  rw [zone]
  split
  · decide
  · simp only [clock, List.length_append, List.length_cons]
    split
    · rw [List.length_nil]
      omega
    · rw [List.length_cons]
      omega

/-- **The text of a date and time is short.** -/
theorem DateTime.length_isoText_le (t : DateTime) : t.isoText.length ≤ 50 := by
  have h₁ := t.length_dayText_le
  have h₂ := t.length_timeText_le
  have h₃ := t.length_fractionText_le
  have h₄ := t.offset.length_zone_le
  simp only [isoText, List.length_append, List.length_cons]
  omega

/-- A character takes four bytes at most. -/
theorem length_ofString_le (cs : List Char) : (Bytes.ofString (String.ofList cs)).length ≤ 4 * cs.length := by
  have hsize : (Bytes.ofString (String.ofList cs)).length = cs.utf8Encode.size := by
    rw [Bytes.ofString, String.toUTF8_eq_toByteArray, String.toByteArray_ofList, Array.length_toList]
    rfl
  rw [hsize]
  clear hsize
  induction cs with
  | nil => simp
  | cons c cs ih =>
    have hc := c.utf8Size_le_four
    rw [List.utf8Encode_cons, ByteArray.size_append, List.utf8Encode_singleton, List.size_toByteArray,
      String.length_utf8EncodeChar, List.length_cons]
    omega

/-! ### Items -/

theorem quiet_quiet (x : Binary64) : x.quiet.quiet = x.quiet := by
  by_cases h : x.isNaN
  · rw [Binary64.quiet.eq_def x, if_pos h]
    rfl
  · rw [Binary64.quiet.eq_def x, if_neg h, Binary64.quiet, if_neg h]

theorem fits_dateTimeItem (settings : Settings) (t : DateTime) : (settings.dateTimeItem t).Fits := by
  rw [Settings.dateTimeItem]
  split
  · refine ⟨by decide, ?_⟩
    split
    · refine fits_ofInt (k := 16) ?_ (by decide)
      have := t.inRange
      simp only [InDateRange, Calendar.firstDay, Calendar.lastDay, Calendar.daySeconds] at this
      omega
    · exact quiet_quiet _
  · have := t.length_isoText_le
    have := length_ofString_le t.isoText
    refine ⟨by decide, ?_⟩
    rw [Item.Fits]
    omega

theorem fits_tag_pair {number : UInt64} {i j : Item} (hi : i.Fits) (hj : j.Fits) :
    (Item.tag number.toNat (.array [i, j])).Fits :=
  ⟨number.toNat_lt, (by decide : 2 < 2 ^ 64), hi, hj, trivial⟩

/-- **The item of a sized scalar fits.** -/
theorem Value.Sized.fits {settings : Settings} {v : Value} {item : Item} (h : v.Sized)
    (hi : settings.item? v = some item) : item.Fits := by
  cases v with
  | null => cases hi; exact (by decide : 22 < 24)
  | undefined => cases hi; exact (by decide : 23 < 24)
  | bool b =>
    cases hi
    cases b
    · exact (by decide : 20 < 24)
    · exact (by decide : 21 < 24)
  | integer i => cases hi; exact fits_integer h
  | bigInt n => cases hi; exact fits_bigInt h
  | float x => cases hi; exact quiet_quiet x
  | bytes bs => cases hi; exact h
  | text s => cases hi; exact h
  | dateTime t => cases hi; exact fits_dateTimeItem settings t
  | naiveDateTime t =>
    obtain ⟨u, _, rfl⟩ := Option.map_eq_some_iff.mp hi
    exact fits_dateTimeItem settings u
  | date d => cases hi; exact fits_dateTimeItem settings _
  | decimal d =>
    cases hi
    cases d with
    | finite mantissa exponent =>
      obtain ⟨hm, he⟩ := h
      refine fits_tag_pair (fits_integer ?_) (fits_bigInt hm)
      simp only [FitsSigned] at he ⊢
      omega
    | nan => rfl
    | infinity => rfl
    | negInfinity => rfl
  | rational r =>
    obtain ⟨hnum, hden⟩ := h
    have hitem : item = .tag Tag.rational.toNat (.array [.ofInt r.numerator, .ofInt r.denominator]) :=
      (Option.some.inj hi).symm
    rw [hitem]
    generalize (r.denominator : Int) = d at hden ⊢
    exact fits_tag_pair (fits_integer hnum) (fits_integer hden)
  | regex pattern => cases hi; exact ⟨by decide, h⟩
  | mime m => cases hi; exact ⟨by decide, h⟩
  | uuid u =>
    cases hi
    refine ⟨by decide, ?_⟩
    rw [Item.Fits, u.length_eq]
    decide
  | tag number v => cases hi
  | container id => cases hi

end CborGraph
