import CborGraph.Builtin
import CborGraph.Proofs.Item

/-!
# How values are read

A value is a scalar, a tag around a value, or a reference to a container. `Settings.item?`
is the data item of a scalar, in which dates, decimals and the like are the tagged items
that they stand for. `Cell.contents?` is what a container is read as: arrays and maps as they
are, a value of the caller's own by its view as a mapping or else as a sequence.
-/

namespace CborGraph

/-! ### Scalars -/

namespace Settings

variable (settings : Settings)

/-- The item of a date and time: a text, or the number of seconds since the epoch. -/
def dateTimeItem (t : DateTime) : Item :=
  if settings.timestampMode then
    .tag Tag.epochSeconds.toNat
      (if t.micros = 0 then .ofInt t.seconds else .float t.epochDouble.quiet)
  else .tag Tag.dateTimeText.toNat (.text (String.ofList t.isoText))

/-- The item of a decimal number. -/
def decimalItem : Decimal → Item
  | .finite mantissa exponent =>
    .tag Tag.decimalFraction.toNat (.array [.ofInt exponent, .ofInt mantissa.toInt])
  | .nan => .float Binary64.nan
  | .infinity => .float ⟨0x7FF0000000000000⟩
  | .negInfinity => .float ⟨0xFFF0000000000000⟩

/-- The item of a scalar. A date and time with no offset has one only if the settings have
a time zone in which it lies in range. -/
def item? : Value → Option Item
  | .null => some (.simple 22)
  | .undefined => some (.simple 23)
  | .bool b => some (.simple (if b then 21 else 20))
  | .integer i => some (.ofInt i)
  | .bigInt n => some (.ofInt n.toInt)
  | .float x => some (.float x.quiet)
  | .bytes bs => some (.bytes bs)
  | .text s => some (.text s)
  | .dateTime t => some (settings.dateTimeItem t)
  | .naiveDateTime t => (settings.timezone.bind t.at?).map settings.dateTimeItem
  | .date d => some (settings.dateTimeItem (.ofDate d))
  | .decimal d => some (decimalItem d)
  | .rational r =>
    some (.tag Tag.rational.toNat (.array [.ofInt r.numerator, .ofInt r.denominator]))
  | .regex pattern => some (.tag Tag.regex.toNat (.text pattern))
  | .mime m => some (.tag Tag.mime.toNat (.text m.text))
  | .uuid u => some (.tag Tag.uuid.toNat (.bytes u.bytes))
  | .tag _ _ => none
  | .container _ => none

end Settings

/-! ### Containers -/

/-- What a container is read as. -/
inductive Contents
  /-- A sequence. -/
  | items (vs : List Value)
  /-- A mapping. -/
  | entries (es : List (Value × Value))
deriving DecidableEq

namespace Contents

/-- The major type of the item. -/
def major : Contents → Major
  | items _ => .array
  | entries _ => .map

/-- How many items or entries there are. -/
def length : Contents → Nat
  | items vs => vs.length
  | entries es => es.length

/-- The values in order, each key before its value. -/
def values : Contents → List Value
  | items vs => vs
  | entries es => unpair es

/-- The item, given the items of the values. -/
def item (parts : List Item) : Contents → Item
  | items _ => .array parts
  | entries _ => .map (pairUp parts)

theorem values_eq_nil_iff (c : Contents) : c.values = [] ↔ c.length = 0 := by
  rw [← List.length_eq_zero_iff]
  cases c with
  | items vs => exact Iff.rfl
  | entries es => rw [values, length_unpair, length, Nat.mul_eq_zero, or_iff_right (by decide)]

theorem length_ne_zero_of_mem {c : Contents} {v : Value} (hv : v ∈ c.values) : c.length ≠ 0 := by
  intro h0
  rw [c.values_eq_nil_iff.mpr h0] at hv
  cases hv

/-- A container is written as a head and the items of its values. -/
theorem wire_item (c : Contents) (compact : Bool) {parts : List Item}
    (h : parts.length = c.values.length) :
    (c.item parts).wire compact = Head.ofLength c.major c.length ++ Item.wireAll compact parts := by
  cases c with
  | items vs => rw [item, Item.wire, h, values, major, length]
  | entries es =>
    have hlen : parts.length = 2 * es.length := by rw [h, values, length_unpair]
    rw [item, Item.wire, length_pairUp hlen, Item.wirePairs_eq, unpair_pairUp parts _ hlen, major,
      length]

/-- The item of a container fits if its length and its parts do. -/
theorem fits_item (c : Contents) {parts : List Item} (h : parts.length = c.values.length)
    (hc : c.length < 2 ^ 64) (hp : Item.FitsAll parts) : (c.item parts).Fits := by
  cases c with
  | items vs => exact ⟨by rw [h]; exact hc, hp⟩
  | entries es =>
    have hlen : parts.length = 2 * es.length := by rw [h, values, length_unpair]
    rw [item, Item.Fits, length_pairUp hlen, Item.fitsPairs_iff, unpair_pairUp parts _ hlen]
    exact ⟨hc, hp⟩

end Contents

/-- What a container is read as; a value of the caller's own may have no view. -/
def Cell.contents? : Cell → Option Contents
  | array vs => some (.items vs)
  | map es => some (.entries es)
  | custom c =>
    match c.mapping?, c.sequence? with
    | some es, _ => some (.entries es)
    | none, some vs => some (.items vs)
    | none, none => none

/-- What the container with an identity is read as. -/
def View.contents? (view : View) (id : Ident) : Option Contents := (view.cell id).contents?

/-- What the values of a container are is in the container. -/
theorem Cell.mem_values_of_contents {cell : Cell} {c : Contents} (h : cell.contents? = some c)
    {v : Value} (hv : v ∈ c.values) : v ∈ cell.values := by
  cases cell with
  | array vs =>
    cases h
    exact hv
  | map es =>
    cases h
    exact hv
  | custom cu =>
    rw [values, List.mem_append]
    simp only [contents?] at h
    split at h
    · next hm =>
      cases h
      right
      rw [hm]
      exact hv
    · next hs =>
      cases h
      left
      rw [hs]
      exact hv
    · cases h

/-- Why a value has no item of its own: a date and time that has no place in UTC, or a
value of the caller's own that has no view. -/
def View.refusal? (view : View) (settings : Settings) : Value → Option EncodeError
  | .naiveDateTime t => if settings.timezone.bind t.at? = none then some .naiveDateTime else none
  | .container id =>
    if view.contents? id = none then some (.unsupportedType (view.typeName (.container id)))
    else none
  | _ => none

end CborGraph
