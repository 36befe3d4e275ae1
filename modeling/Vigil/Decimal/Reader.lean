/-!
# Reading decimals

A number is an optional sign, digits with an optional point among or around
them, and an optional exponent. The words for the infinities and for the
undefined value are read too, in any case.
-/

namespace Vigil.Decimal

def natOfDigits (cs : List Char) : Nat :=
  cs.foldl (fun n c => n * 10 + (c.toNat - '0'.toNat)) 0

/-- A sign in front, `true` for minus, and what follows it. -/
def takeSign : List Char → Bool × List Char
  | '-' :: rest => (true, rest)
  | '+' :: rest => (false, rest)
  | cs => (false, cs)

/-- The exponent at the end of a number; none at all counts as zero. -/
def readExponent? : List Char → Option Int
  | [] => some 0
  | c :: rest =>
    if c == 'e' || c == 'E' then
      let (minus, ds) := takeSign rest
      if ds ≠ [] ∧ ds.all (·.isDigit) then
        some (if minus then -(natOfDigits ds : Int) else natOfDigits ds)
      else none
    else none

/-- The double nearest to `m * 10 ^ e`. Far outside the range of doubles the size
alone decides. -/
def nearest (m : Nat) (e : Int) : Float :=
  let size := (Nat.toDigits 10 m).length + e
  if m = 0 ∨ size < -400 then 0
  else if 400 < size then 1.0 / 0.0
  else Float.ofScientific m (e < 0) e.natAbs

def readUnsigned? (cs : List Char) : Option Float :=
  match String.ofList (cs.map Char.toLower) with
  | "inf" | "infinity" => some (1.0 / 0.0)
  | "nan" => some (0.0 / 0.0)
  | _ =>
    let whole := cs.takeWhile Char.isDigit
    let rest := cs.dropWhile Char.isDigit
    let (part, rest) := match rest with
      | '.' :: rest => (rest.takeWhile Char.isDigit, rest.dropWhile Char.isDigit)
      | rest => ([], rest)
    if whole.isEmpty && part.isEmpty then none
    else
      (readExponent? rest).map fun e => nearest (natOfDigits (whole ++ part)) (e - part.length)

/-- The double nearest to the number written in `s`. -/
def read? (s : String) : Option Float :=
  let (minus, cs) := takeSign s.toList
  (readUnsigned? cs).map fun x => if minus then -x else x

end Vigil.Decimal
