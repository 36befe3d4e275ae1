/-!
# Readers

A reader takes characters from the front and returns what it read with what is left;
it has no answer if the characters are not what it reads.
-/

namespace Vigil

abbrev Reader (α : Type) := List Char → Option (α × List Char)

/-- The value of a digit in bases up to sixteen. -/
def digitValue? (c : Char) : Option Nat :=
  if c.isDigit then some (c.toNat - '0'.toNat)
  else if 'a' ≤ c && c ≤ 'f' then some (c.toNat - 'a'.toNat + 10)
  else if 'A' ≤ c && c ≤ 'F' then some (c.toNat - 'A'.toNat + 10)
  else none

/-- The number written by digits of a base up to sixteen, all of them. -/
def readDigits? (base : Nat) (cs : List Char) : Option Nat :=
  cs.foldl (fun n c => do
    let n ← n
    let d ← digitValue? c
    if d < base then some (n * base + d) else none) (some 0)

/-- The number in the next `n` hexadecimal digits. -/
def readHex (n : Nat) : Reader Nat := fun cs => do
  let digits := cs.take n
  if digits.length ≠ n then none
  return (← readDigits? 16 digits, cs.drop n)

end Vigil
