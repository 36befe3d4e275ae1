/-!
# Hash of a rule set

The UIDs of a rule set are put in order and their bytes folded into sixty-four
bits, so the hash does not depend on the order in which rules are listed.
-/

namespace Vigil.RuleSetHash

def offset : UInt64 := 0xcbf29ce484222325
def prime : UInt64 := 0x100000001b3

/-- The bytes that are folded: those of the UIDs in order, end to end. -/
def bytes (uids : List String) : List UInt8 :=
  uids.mergeSort.flatMap fun uid => uid.toUTF8.data.toList

def fold (bs : List UInt8) : UInt64 :=
  bs.foldl (fun h b => (h ^^^ b.toUInt64) * prime) offset

def hash (uids : List String) : UInt64 := fold (bytes uids)

/-- A hash as a signed reading; the top bit is dropped. -/
def reading (h : UInt64) : Nat := h.toNat % (1 <<< 63)

end Vigil.RuleSetHash
