import Vigil.Decimal.Shortest

/-!
# Decimals in 64 bits

A quick way to a decimal scales the basin of a float by a power of ten that is kept
to 64 bits, and takes digits of its upper end until what they leave out is no wider
than the basin. The last digit is then lowered towards the value, but not behind a
ninth decimal place of the scaled number. So the decimal reads back, but of those
that do it is not always the shortest, nor the nearest.
-/

namespace Vigil.Decimal

/-- `significand * 2 ^ exponent`, with a significand below `2 ^ 64`. -/
structure Scaled where
  significand : Nat
  exponent : Int

namespace Scaled

/-- The product with a whole number below `2 ^ 64`, a half rounded up. -/
def times (c : Scaled) (n : Nat) : Nat := (c.significand * n + (1 <<< 63)) / (1 <<< 64)

/-- The nearest to `10 ^ k`, with all 64 bits in use. -/
def powerOfTen (k : Int) : Scaled :=
  let num := Nat.pow 10 k.toNat
  let den := Nat.pow 10 (-k).toNat
  let rounded := fun (e : Int) =>
    let n := num * (1 <<< (-e).toNat)
    let d := den * (1 <<< e.toNat)
    (2 * n + d) / (2 * d)
  let e : Int := (num.log2 : Int) - den.log2 - 64
  if rounded e < 1 <<< 64 then ⟨rounded e, e⟩ else ⟨rounded (e + 1), e + 1⟩

/-- The exponent of the power of ten that lifts `2 ^ e` to `2 ^ -61` at least. Only
every eighth power is in use. -/
def powerFor (e : Int) : Int :=
  let least := -((61 + e) * 30103 / 100000)
  least + (4 - least) % 8

end Scaled

/-- A basin times a power of ten, its ends drawn in by one. All is counted in units
of `2 ^ -places`. -/
structure Strip where
  upper : Nat
  /-- From the upper end down to the lower. -/
  width : Nat
  /-- From the upper end down to the value. -/
  gap : Nat
  places : Nat

namespace Strip

/-- Lowers the last of `digits` by one at a time, as long as that leads closer to
the value and stays above the lower end. -/
def settle (gap width unit : Nat) : Nat → Nat → Nat → Nat
  | 0, _, digits => digits
  | fuel + 1, rest, digits =>
    let next := rest + unit
    if rest < gap ∧ next ≤ width ∧ (next < gap ∨ next - gap < gap - rest) then
      settle gap width unit fuel next (digits - 1)
    else digits

/-- The upper end without its digits below `10 ^ e`, if they come to no more than
the width. -/
def cut? (s : Strip) (e : Int) : Option Numeral :=
  let tens := Nat.pow 10 (-e).toNat
  let unit := Nat.pow 10 e.toNat * (1 <<< s.places)
  let width := s.width * tens
  let rest := s.upper * tens % unit
  if rest < width ∨ (0 ≤ e ∧ rest = width) then
    let gap := if -9 < e then s.gap * tens else 0
    some ⟨settle gap width unit 10 rest (s.upper * tens / unit), e⟩
  else none

/-- The first cut from `10 ^ e` on, `fuel` cuts at most. -/
def search (s : Strip) (e : Int) : Nat → Numeral
  | 0 => ⟨s.upper, 0⟩
  | fuel + 1 => (s.cut? e).getD (s.search (e - 1) fuel)

def digits (s : Strip) : Numeral :=
  s.search ((Nat.toDigits 10 (s.upper / (1 <<< s.places))).length - 1) 30

end Strip

namespace Basin

/-- The decimal in 64 bits. -/
def quick (b : Basin) : Numeral :=
  let shift := 63 - b.high.log2
  let e := b.scale - shift
  let k := Scaled.powerFor e
  let power := Scaled.powerOfTen k
  let part := fun (n : Nat) => power.times (n * (1 <<< shift))
  let upper := part b.high - 1
  let s : Strip :=
    ⟨upper, upper - (part b.low + 1), upper - part b.mid, (-(e + power.exponent + 64)).toNat⟩
  let x := s.digits
  { x with exponent := x.exponent - k }

end Basin

/-- Readings of metrics stand in the form that is quick to find. -/
def Style.quick : Style := ⟨Basin.quick, true⟩

end Vigil.Decimal
