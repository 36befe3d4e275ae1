/-!
# Shortest decimals

A binary float stands for every real that rounds to it. Its shortest decimal is
the one with the fewest significant digits among those reals, and of two with as
few digits the nearer, or the greater if neither is nearer. The search walks the
decimal grids from one digit up to seventeen and tests the two neighbours of the
value on each, in exact arithmetic.
-/

namespace Vigil.Decimal

/-- The reals that round to one positive float: `low` to `high` around `mid`,
all counted in units of `2 ^ scale`; the ends belong iff `closed`. -/
structure Basin where
  low : Nat
  mid : Nat
  high : Nat
  scale : Int
  closed : Bool

/-- The basin of the positive finite double with the given exponent and fraction
fields. The gap below a power of two is half the gap above it. -/
def Basin.ofFields (exponent fraction : Nat) : Basin :=
  let m := if exponent = 0 then fraction else (1 <<< 52) + fraction
  let q : Int := (max exponent 1 : Nat) - 1075
  let below := if fraction = 0 ∧ 1 < exponent then 1 else 2
  ⟨4 * m - below, 4 * m, 4 * m + 2, q - 2, m % 2 == 0⟩

/-- A positive decimal: `digits * 10 ^ exponent`. -/
structure Numeral where
  digits : Nat
  exponent : Int

namespace Basin

/-- `n * 2 ^ scale / 10 ^ e` as a fraction of naturals. -/
def scaled (b : Basin) (n : Nat) (e : Int) : Nat × Nat :=
  (n * (1 <<< b.scale.toNat) * Nat.pow 10 (-e).toNat, (1 <<< (-b.scale).toNat) * Nat.pow 10 e.toNat)

/-- Whether `d * 10 ^ e` lies in the basin. -/
def holds (b : Basin) (d : Nat) (e : Int) : Bool :=
  let (low, den) := b.scaled b.low e
  let (high, _) := b.scaled b.high e
  if b.closed then low ≤ d * den && d * den ≤ high
  else low < d * den && d * den < high

/-- The number of digits before the point in `mid * 2 ^ scale`; zero or less for
a value under one. -/
def magnitude (b : Basin) : Int :=
  let (num, den) := b.scaled b.mid 0
  let guess : Int := (Nat.toDigits 10 num).length - (Nat.toDigits 10 den).length
  let (num, den) := b.scaled b.mid guess
  if den ≤ num then guess + 1 else guess

/-- The neighbour of the value on the grid `10 ^ e` that lies in the basin, the
nearer if both do, the upper if they are equally near. -/
def neighbour? (b : Basin) (e : Int) : Option Numeral :=
  let (num, den) := b.scaled b.mid e
  let d := num / den
  match b.holds d e, b.holds (d + 1) e with
  | true, true =>
    some (if 2 * (num - d * den) < den then ⟨d, e⟩ else ⟨d + 1, e⟩)
  | true, false => some ⟨d, e⟩
  | false, true => some ⟨d + 1, e⟩
  | false, false => none

/-- The first grid with a hit, from `n` digits on, `fuel` grids at most. -/
def search (b : Basin) (magnitude : Int) (n : Nat) : Nat → Numeral
  | 0 => ⟨b.mid, 0⟩
  | fuel + 1 =>
    (b.neighbour? (magnitude - n)).getD (b.search magnitude (n + 1) fuel)

def shortest (b : Basin) : Numeral := b.search b.magnitude 1 17

end Basin

/-- The decimal in positional notation. `pointed` says whether a whole number
gets a point and a zero. -/
def Numeral.positional (x : Numeral) (pointed : Bool) : String :=
  let ds := Nat.toDigits 10 x.digits
  let kept := (ds.reverse.dropWhile (· == '0')).reverse
  let e := x.exponent + (ds.length - kept.length : Nat)
  if 0 ≤ e then
    String.ofList (kept ++ List.replicate e.toNat '0' ++ if pointed then ['.', '0'] else [])
  else
    let back := (-e).toNat
    let padded := List.replicate (back + 1 - kept.length) '0' ++ kept
    String.ofList (padded.take (padded.length - back) ++ '.' :: padded.drop (padded.length - back))

/-- How a float is written: how the decimal of a positive one is found, and whether
a whole number gets a point and a zero. -/
structure Style where
  digits : Basin → Numeral
  pointed : Bool

/-- The positional text of a double, sign of zero included. -/
def Style.write (style : Style) (x : Float) : String :=
  let bits := x.toBits.toNat
  let sign := if bits / (1 <<< 63) = 1 then "-" else ""
  let exponent := bits / (1 <<< 52) % (1 <<< 11)
  let fraction := bits % (1 <<< 52)
  if exponent = 2047 then
    if fraction = 0 then sign ++ "inf" else "NaN"
  else if exponent = 0 ∧ fraction = 0 then
    sign ++ (if style.pointed then "0.0" else "0")
  else
    sign ++ (style.digits (Basin.ofFields exponent fraction)).positional style.pointed

/-- Values stand in their shortest form. -/
def Style.shortest : Style := ⟨Basin.shortest, false⟩

end Vigil.Decimal
