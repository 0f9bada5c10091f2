import CborGraph.Proofs.DateTimeForm
import CborGraph.Proofs.Rounding

/-!
# Order and precision of timestamps

The number of a date and time is `DateTime.number`: the second since the epoch, or, if there are
microseconds, a double that is rounded twice. The double lies between the second and the next one
(`DateTime.number_mem`), so numbers keep the order of instants, integers and doubles alike,
`DateTime.number_mono`. For some centuries around the epoch the two roundings are off by less than half a
microsecond, `DateTime.round_number`.

Main statement: `encode_timestamp_order`.
-/

namespace CborGraph

open Binary64

/-! ### Numbers -/

/-- The number that an item stands for: an integer, or the value of a finite double. -/
def Item.number? : Item → Option ℚ
  | .float x => if x.isNaN || x.isInfinite then none else some x.value
  | item => item.int?.map fun i : Int => (i : ℚ)

/-- The number under the tag of timestamps, if there is nothing else. -/
def timestamp? (bs : Bytes) : Option ℚ :=
  match Item.parse true bs with
  | some (.tag 1 item, []) => item.number?
  | _ => none

theorem Item.number?_of_int? {item : Item} {i : Int} (h : item.int? = some i) :
    item.number? = some (i : ℚ) := by
  cases item with
  | float x => cases h
  | _ => simp only [number?, h, Option.map_some]

namespace DateTime

variable {t t' : DateTime}

/-- The double nearest to the microseconds, in seconds. -/
def fraction (t : DateTime) : Binary64 := .ofRatio t.micros 1000000

/-- The number of a date and time. -/
def number (t : DateTime) : ℚ := if t.micros = 0 then t.seconds else t.epochDouble.value

/-- The number is rounded as it should be: the fraction to the nearest double, and then the sum. -/
def RoundsTo (t : DateTime) (q : ℚ) : Prop :=
  if t.micros = 0 then q = t.seconds
  else ∃ y x : Binary64, Nearest (t.micros / 1000000) y ∧ Nearest (t.seconds + y.value) x ∧ q = x.value

/-! ### The two roundings -/

/-- The seconds have fewer bits than a double. -/
theorem natAbs_seconds_lt (t : DateTime) : t.seconds.natAbs < 2 ^ 43 := by
  have h := t.inRange
  simp only [InDateRange, Calendar.firstDay, Calendar.lastDay, Calendar.daySeconds] at h
  omega

theorem exists_seconds (t : DateTime) (k : Int) (hk : k.natAbs ≤ 1) :
    ∃ y : Binary64, y.IsFinite ∧ y.value = t.seconds + k := by
  have hlt := t.natAbs_seconds_lt
  obtain ⟨y, hy, hvalue⟩ := exists_value (t.seconds + k) (e := 0) (by omega) (Nat.zero_le _)
  refine ⟨y, hy, ?_⟩
  rw [hvalue, pow_zero, div_one, Int.cast_add]

theorem nearest_fraction (t : DateTime) : Nearest (t.micros / 1000000) t.fraction := by
  have hmicros : t.micros < 2000000 := by
    have hnanos := t.nanos_lt
    rw [leapNanos] at hnanos
    rw [micros]
    omega
  have hcast : ((t.micros : Int) : ℚ) / (1000000 : Nat) = t.micros / 1000000 := by push_cast; rfl
  have hrange : |((t.micros : Int) : ℚ) / (1000000 : Nat)| < 2 ^ 1 := by
    have hlt : (t.micros : ℚ) < 2000000 := by exact_mod_cast hmicros
    rw [hcast, abs_of_nonneg (by positivity), div_lt_iff₀ (by norm_num)]
    linarith
  have hnearest := nearest_ofRatio (t.micros : Int) (by decide) (by decide) hrange
  rwa [hcast] at hnearest

/-- The fraction may be rounded to the next second, but no further. -/
theorem fraction_mem (h : ¬t.InLeapSecond) : 0 ≤ t.fraction.value ∧ t.fraction.value ≤ 1 := by
  have hlt : (t.micros : ℚ) < 1000000 := by exact_mod_cast micros_lt h
  have hnearest := t.nearest_fraction
  obtain ⟨zero, hzero, hzeroValue⟩ := exists_value 0 (Nat.zero_le _) (Nat.zero_le _)
  obtain ⟨one, hone, honeValue⟩ := exists_value 1 (by decide) (Nat.zero_le _)
  rw [Int.cast_zero, zero_div] at hzeroValue
  rw [Int.cast_one, pow_zero, div_one] at honeValue
  constructor
  · rw [← hzeroValue]
    refine hnearest.ge_of_ge hzero ?_
    rw [hzeroValue]
    positivity
  · rw [← honeValue]
    refine hnearest.le_of_le hone ?_
    rw [honeValue, div_le_one (by norm_num)]
    exact hlt.le

theorem abs_seconds_lt (t : DateTime) : |(t.seconds : ℚ)| < 2 ^ 43 := by
  rw [← Int.cast_abs, ← Nat.cast_natAbs]
  exact_mod_cast t.natAbs_seconds_lt

/-- The second is a double. -/
theorem value_seconds (t : DateTime) : (Binary64.ofRatio t.seconds 1).value = t.seconds := by
  have hcast : (t.seconds : ℚ) / (1 : Nat) = t.seconds := by rw [Nat.cast_one, div_one]
  have hnearest := nearest_ofRatio t.seconds Nat.one_pos (by decide : 43 ≤ 1022)
    (by rw [hcast]; exact t.abs_seconds_lt)
  obtain ⟨y, hy, hvalue⟩ := t.exists_seconds 0 (Nat.zero_le 1)
  rw [hcast] at hnearest
  exact hnearest.eq_of_value hy (by rw [hvalue, Int.cast_zero, add_zero])

theorem nearest_epochDouble (h : ¬t.InLeapSecond) :
    Nearest (t.seconds + t.fraction.value) t.epochDouble := by
  obtain ⟨hlo, hhi⟩ := fraction_mem h
  have hseconds := abs_lt.mp t.abs_seconds_lt
  have hsum : |(Binary64.ofRatio t.seconds 1).value + t.fraction.value| < 2 ^ 44 := by
    rw [value_seconds, abs_lt]
    constructor <;> linarith
  have hnearest := nearest_add _ _ (by decide) hsum
  rwa [value_seconds] at hnearest

theorem roundsTo_number (h : ¬t.InLeapSecond) : t.RoundsTo t.number := by
  rw [RoundsTo, number]
  split
  · rfl
  · exact ⟨_, _, t.nearest_fraction, nearest_epochDouble h, rfl⟩

/-! ### Order -/

/-- The number lies between the second and the next one. -/
theorem number_mem (h : ¬t.InLeapSecond) : t.seconds ≤ t.number ∧ t.number ≤ t.seconds + 1 := by
  obtain ⟨hlo, hhi⟩ := fraction_mem h
  have hnearest := nearest_epochDouble h
  obtain ⟨second, hsecond, hsecondValue⟩ := t.exists_seconds 0 (Nat.zero_le 1)
  obtain ⟨next, hnext, hnextValue⟩ := t.exists_seconds 1 le_rfl
  rw [Int.cast_zero, add_zero] at hsecondValue
  rw [Int.cast_one] at hnextValue
  rw [number]
  split
  · constructor <;> linarith
  · constructor
    · rw [← hsecondValue]
      exact hnearest.ge_of_ge hsecond (by linarith)
    · rw [← hnextValue]
      exact hnearest.le_of_le hnext (by linarith)

/-- Within a second, more microseconds have no smaller double. -/
theorem epochDouble_mono (h : ¬t.InLeapSecond) (h' : ¬t'.InLeapSecond) (hseconds : t.seconds = t'.seconds)
    (hmicros : t.micros < t'.micros) : t.epochDouble.value ≤ t'.epochDouble.value := by
  have hlt : (t.micros : ℚ) / 1000000 < t'.micros / 1000000 := by
    have hcast : (t.micros : ℚ) < t'.micros := by exact_mod_cast hmicros
    linarith
  rcases lt_or_eq_of_le (t.nearest_fraction.mono t'.nearest_fraction hlt) with hfraction | hfraction
  · refine (nearest_epochDouble h).mono (nearest_epochDouble h') ?_
    rw [hseconds]
    linarith
  · have hequal : t.epochDouble = t'.epochDouble := by
      rw [epochDouble, epochDouble, hseconds]
      exact add_congr _ hfraction
    rw [hequal]

/-- **Numbers keep the order of instants**, integers and doubles alike. -/
theorem number_mono (h : ¬t.InLeapSecond) (h' : ¬t'.InLeapSecond)
    (hle : t.instant / 1000 ≤ t'.instant / 1000) : t.number ≤ t'.number := by
  have hlt := micros_lt h
  have hlt' := micros_lt h'
  rw [instant_div, instant_div] at hle
  obtain ⟨hlo, hhi⟩ := number_mem h
  obtain ⟨hlo', hhi'⟩ := number_mem h'
  have hcases : t.seconds + 1 ≤ t'.seconds ∨ t.seconds = t'.seconds ∧ t.micros ≤ t'.micros := by omega
  rcases hcases with hnext | ⟨hsame, hmicros⟩
  · have hcast : (t.seconds : ℚ) + 1 ≤ t'.seconds := by exact_mod_cast hnext
    linarith
  · rcases Nat.lt_or_eq_of_le hmicros with hmore | hequal
    · by_cases h0 : t.micros = 0
      · rw [number, if_pos h0, hsame]
        exact hlo'
      · rw [number, number, if_neg h0, if_neg (by omega)]
        exact epochDouble_mono h h' hsame hmore
    · have hequal : t.number = t'.number := by simp only [number, epochDouble, hsame, hequal]
      exact hequal.le

/-! ### Precision -/

/-- **Around the epoch the number is off by less than half a microsecond.** -/
theorem number_error (h : ¬t.InLeapSecond) (hlo : -2 ^ 33 < t.seconds) (hhi : t.seconds < 2 ^ 33) :
    |t.number * 1000000 - (t.instant / 1000 : Int)| < 1 / 2 := by
  have hunit : Format.double.unitExponent = 1074 := rfl
  have hinstant : ((t.instant / 1000 : Int) : ℚ) = t.seconds * 1000000 + t.micros := by
    rw [instant_div]
    push_cast
    rfl
  rw [hinstant, number]
  split
  · next h0 =>
    rw [h0, Nat.cast_zero, add_zero, sub_self, abs_zero]
    norm_num
  · have hlo' : -2 ^ 33 + 1 ≤ (t.seconds : ℚ) := by exact_mod_cast hlo
    have hhi' : (t.seconds : ℚ) + 1 ≤ 2 ^ 33 := by exact_mod_cast hhi
    have hmicros : (t.micros : ℚ) < 1000000 := by exact_mod_cast micros_lt h
    obtain ⟨hfraction₀, hfraction₁⟩ := fraction_mem h
    have herror : |t.fraction.value - t.micros / 1000000| ≤ 1 / 2 ^ (53 + 1) := by
      refine t.nearest_fraction.error_le (by omega) ?_
      rw [abs_of_nonneg (by positivity)]
      linarith
    have herror' : |t.epochDouble.value - (t.seconds + t.fraction.value)| ≤ 1 / 2 ^ (20 + 1) := by
      refine (nearest_epochDouble h).error_le (by omega) ?_
      rw [abs_le]
      constructor <;> linarith
    rw [abs_le] at herror herror'
    rw [abs_lt]
    constructor <;> linarith

/-- **Around the epoch the microseconds are got back by rounding.** -/
theorem round_number (h : ¬t.InLeapSecond) (hlo : -2 ^ 33 < t.seconds) (hhi : t.seconds < 2 ^ 33) :
    round (t.number * 1000000) = t.instant / 1000 := by
  have herror := abs_lt.mp (number_error h hlo hhi)
  rw [round_eq, Int.floor_eq_iff]
  constructor <;> linarith

end DateTime

/-! ### Reading what was written -/

theorem timestamp?_dateTimeItem {settings : Settings} (hmode : settings.timestampMode = true) {t : DateTime}
    (h : ¬t.InLeapSecond) :
    timestamp? ((settings.dateTimeItem t).wire settings.compactFloats) = some t.number := by
  have hparse := Item.parse_wire true settings.compactFloats (fits_dateTimeItem settings t) []
  rw [List.append_nil] at hparse
  have hfinite := isFinite_iff.mp (DateTime.nearest_epochDouble h).finite
  have hquiet : t.epochDouble.quiet = t.epochDouble := by rw [quiet, hfinite.1]; rfl
  have hitem : settings.dateTimeItem t =
      .tag 1 (if t.micros = 0 then .ofInt t.seconds else .float t.epochDouble) := by
    rw [Settings.dateTimeItem, hmode, hquiet]
    rfl
  rw [timestamp?, hparse, hitem]
  simp only
  rw [DateTime.number]
  split
  · exact Item.number?_of_int? (Item.int?_ofInt t.seconds)
  · rw [Item.number?, hfinite.1, hfinite.2]
    rfl

/-- **Timestamps keep the order and the microseconds.** Away from leap seconds, the number that is read
from the bytes is rounded as it should be. It is not greater than that of a date and time which is not
earlier, to the microsecond. The same instant, to the microsecond, has the same bytes at all offsets. If
the second has no more than 33 bits, the microseconds are got back by rounding, and so no two instants
have the same number or the same bytes. -/
theorem encode_timestamp_order {o : Options} (ho : o.overrides = []) (hmode : o.timestampMode = true)
    {t t' : DateTime} (ht : ¬t.InLeapSecond) (ht' : ¬t'.InLeapSecond) :
    ∃ bs bs' q q', o.Writes (.dateTime t) bs ∧ o.Writes (.dateTime t') bs' ∧
      timestamp? bs = some q ∧ timestamp? bs' = some q' ∧ t.RoundsTo q ∧ t'.RoundsTo q' ∧
      (t.instant / 1000 ≤ t'.instant / 1000 → q ≤ q') ∧
      (t.instant / 1000 = t'.instant / 1000 → bs = bs') ∧
      (-2 ^ 33 < t.seconds → t.seconds < 2 ^ 33 → round (q * 1000000) = t.instant / 1000) ∧
      (-2 ^ 33 < t.seconds → t.seconds < 2 ^ 33 → -2 ^ 33 < t'.seconds → t'.seconds < 2 ^ 33 →
        t.instant / 1000 ≠ t'.instant / 1000 → q ≠ q' ∧ bs ≠ bs') := by
  have hround := DateTime.round_number ht
  refine ⟨_, _, t.number, t'.number, Options.writes_dateTime ho t, Options.writes_dateTime ho t',
    timestamp?_dateTimeItem hmode ht, timestamp?_dateTimeItem hmode ht', DateTime.roundsTo_number ht,
    DateTime.roundsTo_number ht', DateTime.number_mono ht ht', fun heq => ?_, hround,
    fun hlo hhi hlo' hhi' hne => ?_⟩
  · obtain ⟨hseconds, hmicros⟩ := (DateTime.instant_div_eq_iff ht ht').mp heq
    simp only [Settings.dateTimeItem, hmode, if_true, DateTime.epochDouble, hseconds, hmicros]
  · have hnumber : t.number ≠ t'.number := by
      intro heq
      rw [← hround hlo hhi, ← DateTime.round_number ht' hlo' hhi', heq] at hne
      exact hne rfl
    refine ⟨hnumber, fun hbytes => hnumber ?_⟩
    have hread := timestamp?_dateTimeItem hmode ht
    rw [hbytes, timestamp?_dateTimeItem hmode ht'] at hread
    exact (Option.some_inj.mp hread).symm

/-- Two microseconds and one before the epoch, at two offsets: most of the fraction is cancelled. -/
theorem encode_timestamp_order_before_epoch :
    let t : DateTime := ⟨-1, 999998000, ⟨-5025, by decide, by decide⟩, by decide, by decide⟩
    let t' : DateTime := ⟨-1, 999999999, .utc, by decide, by decide⟩
    let o : Options := { timestampMode := true }
    o.overrides = [] ∧ o.timestampMode = true ∧ ¬t.InLeapSecond ∧ ¬t'.InLeapSecond ∧
      ∃ bs bs' q q', o.Writes (.dateTime t) bs ∧ o.Writes (.dateTime t') bs' ∧
        timestamp? bs = some q ∧ timestamp? bs' = some q' ∧ q ≤ q' ∧ round (q * 1000000) = -2 ∧
        q ≠ q' ∧ bs ≠ bs' := by
  intro t t' o
  have hleap : ∀ n : Nat, n < 1000000000 → ¬1000000000 ≤ n := fun _ => Nat.not_le_of_lt
  have ht : ¬t.InLeapSecond := hleap 999998000 (by decide)
  have ht' : ¬t'.InLeapSecond := hleap 999999999 (by decide)
  have hle : t.instant / 1000 ≤ t'.instant / 1000 := by decide
  have hne : t.instant / 1000 ≠ t'.instant / 1000 := by decide
  obtain ⟨bs, bs', q, q', hbs, hbs', hq, hq', -, -, hmono, -, hround, hapart⟩ :=
    encode_timestamp_order (o := o) rfl rfl ht ht'
  obtain ⟨hnumber, hbytes⟩ := hapart (by decide) (by decide) (by decide) (by decide) hne
  exact ⟨rfl, rfl, ht, ht', bs, bs', q, q', hbs, hbs', hq, hq', hmono hle, hround (by decide) (by decide),
    hnumber, hbytes⟩

end CborGraph
