import Vigil.Decimal.Reader
import Vigil.Document
import Vigil.Reader

/-!
# Numbers of JSON

A number without point and exponent is whole if it fits in 64 bits, with or without
a sign; there is no whole negative zero. Any other number is a float: the nearest one,
or one that is quick to find. The latter is as many of the digits as fit in 64 bits,
times a power of ten or through one, and with many digits it need not be the nearest.
-/

namespace Vigil.Json

/-- Appends digits to a number as long as it stays below `2 ^ 64`, and counts the
digits that are left over. -/
def appendDigits (n : Nat) : List Char → Nat × Nat
  | [] => (n, 0)
  | c :: cs =>
    let next := n * 10 + (c.toNat - '0'.toNat)
    if next < 1 <<< 64 then appendDigits next cs else (n, cs.length + 1)

/-- About `x * 10 ^ e`: one product or one quotient, behind quotients by `10 ^ 308`
for exponents below. There is no answer beyond the greatest float. -/
def scale? (x : Float) (e : Int) : Nat → Option Float
  | 0 => some 0
  | fuel + 1 =>
    if e.natAbs ≤ 308 then
      let power := Float.ofScientific 1 false e.natAbs
      let y := if 0 ≤ e then x * power else x / power
      if y.isInf then none else some y
    else if x == 0 then some x
    else if 0 ≤ e then none
    else scale? (x / 1e308) (e + 308) fuel

/-- The quick float for the digits before and behind the point. -/
def quickReal? (whole fraction : List Char) (exponent : Int) : Option Float :=
  let (n, extra) := appendDigits 0 whole
  let (n, left) := appendDigits n fraction
  scale? (UInt64.ofNat n).toFloat (exponent + extra + left - fraction.length) 8

def nearestReal (whole fraction : List Char) (exponent : Int) : Float :=
  Decimal.nearest (Decimal.natOfDigits (whole ++ fraction)) (exponent - fraction.length)

/-- The digits behind a point; none if there is no point. -/
def readFraction : Reader (List Char)
  | '.' :: rest =>
    let digits := rest.takeWhile Char.isDigit
    if digits.isEmpty then none else some (digits, rest.drop digits.length)
  | rest => some ([], rest)

/-- An exponent; zero if there is none. -/
def readExponent : Reader Int
  | [] => some (0, [])
  | c :: rest =>
    if c == 'e' || c == 'E' then
      let (minus, rest) := Decimal.takeSign rest
      let digits := rest.takeWhile Char.isDigit
      let n : Int := Decimal.natOfDigits digits
      if digits.isEmpty then none else some (if minus then -n else n, rest.drop digits.length)
    else some (0, c :: rest)

/-- The whole number, if it fits in 64 bits. -/
def whole? (minus : Bool) (n : Nat) : Option Int :=
  if minus then if 0 < n ∧ n ≤ 1 <<< 63 then some (-n) else none
  else if n < 1 <<< 64 then some n
  else none

/-- A number. If `exact`, a float is the nearest. -/
def readNumber (exact : Bool) : Reader Document := fun cs => do
  let minus := cs.head? == some '-'
  let body := if minus then cs.drop 1 else cs
  let digits := body.takeWhile Char.isDigit
  let tail := body.drop digits.length
  if digits.isEmpty || (digits.head? == some '0' && digits ≠ ['0']) then none
  let (fraction, rest) ← readFraction tail
  let (exponent, rest) ← readExponent rest
  match whole? minus (Decimal.natOfDigits digits), rest.length == tail.length with
  | some n, true => return (.integer n, rest)
  | _, _ =>
    let x ← if exact then some (nearestReal digits fraction exponent)
      else quickReal? digits fraction exponent
    return (.real (if minus then -x else x), rest)

end Vigil.Json
