import Vigil.Time
import Mathlib.Tactic.Ring

/-!
# Spans in machine words

A span is kept as two words: its whole seconds in one of 64 bits, and the nanoseconds that are
left in one of 32. It is divided and repeated word by word, and whatever comes up on the way has
to fit a word. A division fits unless it is by zero (`SpanWords.exists_divide?`), and a
repetition fits exactly if the whole result is a span (`SpanWords.map_times?`).
-/

namespace Vigil

/-- The word of 64 bits for a number that fits one. -/
def word? (n : Nat) : Option UInt64 := if n < UInt64.size then some (.ofNat n) else none

/-- The word of 32 bits for a number that fits one. -/
def shortWord? (n : Nat) : Option UInt32 := if n < UInt32.size then some (.ofNat n) else none

theorem exists_word? {n : Nat} (h : n < UInt64.size) : ∃ w, word? n = some w ∧ w.toNat = n :=
  ⟨.ofNat n, if_pos h, UInt64.toNat_ofNat_of_lt' h⟩

theorem exists_shortWord? {n : Nat} (h : n < UInt32.size) :
    ∃ w, shortWord? n = some w ∧ w.toNat = n :=
  ⟨.ofNat n, if_pos h, UInt32.toNat_ofNat_of_lt' h⟩

theorem word?_eq_none {n : Nat} (h : UInt64.size ≤ n) : word? n = none :=
  if_neg (Nat.not_lt.2 h)

/-- A span in words: whole seconds, and nanoseconds that make no second. -/
structure SpanWords where
  seconds : UInt64
  nanos : UInt32
  nanos_lt : nanos.toNat < nanosPerSecond

namespace SpanWords

def toSpan (d : SpanWords) : Span := ⟨nanosPerSecond * d.seconds.toNat + d.nanos.toNat⟩

def ofSeconds (s : UInt64) : SpanWords := ⟨s, 0, by decide⟩

/-- The span of two words, if the nanoseconds make no second. -/
def ofWords? (seconds : UInt64) (nanos : UInt32) : Option SpanWords :=
  if h : nanos.toNat < nanosPerSecond then some ⟨seconds, nanos, h⟩ else none

/-- Divides each word; the seconds that are left over go on as nanoseconds. -/
def divide? (d : SpanWords) (k : UInt32) : Option SpanWords :=
  if k = 0 then none
  else do
    let carried ← word? ((d.seconds % k.toUInt64).toNat * nanosPerSecond)
    let left ← word? (carried.toNat + (d.nanos % k).toNat)
    let more ← shortWord? (left / k.toUInt64).toNat
    let nanos ← shortWord? ((d.nanos / k).toNat + more.toNat)
    ofWords? (d.seconds / k.toUInt64) nanos

/-- Multiplies each word; the seconds that the nanoseconds make go to the seconds. -/
def times? (d : SpanWords) (k : UInt32) : Option SpanWords := do
  let nanos ← word? (d.nanos.toNat * k.toNat)
  let seconds ← word? (d.seconds.toNat * k.toNat)
  let total ← word? (seconds.toNat + nanos.toNat / nanosPerSecond)
  let rest ← shortWord? (nanos.toNat % nanosPerSecond)
  ofWords? total rest

theorem toSpan_ofSeconds (s : UInt64) : (ofSeconds s).toSpan = .ofSeconds s.toNat := rfl

theorem ofWords?_of_lt {seconds : UInt64} {nanos : UInt32} (h : nanos.toNat < nanosPerSecond) :
    ofWords? seconds nanos = some ⟨seconds, nanos, h⟩ :=
  dif_pos h

/-- The seconds decide whether seconds and nanoseconds are a span. -/
theorem add_lt_limit_iff {s n : Nat} (hn : n < nanosPerSecond) :
    nanosPerSecond * s + n < Span.limit ↔ s < UInt64.size := by
  simp only [Span.limit, nanosPerSecond, UInt64.size] at hn ⊢
  omega

theorem toSpan_lt_limit (d : SpanWords) : d.toSpan.nanos < Span.limit :=
  (add_lt_limit_iff d.nanos_lt).2 d.seconds.toNat_lt

/-! ## Division -/

/-- What is left over may be put to the rest of `n`, or to `n` itself. -/
theorem div_add_left_div (left n : Nat) {k : Nat} (hk : 0 < k) :
    n / k + (left + n % k) / k = (left + n) / k := by
  have hsplit : left + n = k * (n / k) + (left + n % k) := by
    have := Nat.div_add_mod n k
    omega
  rw [hsplit, Nat.mul_add_div hk]

/-- The seconds that are left over make less than a second for each part. -/
theorem left_div_lt {s n k : Nat} (hk : 0 < k) (hn : n < nanosPerSecond) :
    (s % k * nanosPerSecond + n) / k < nanosPerSecond := by
  have hmod : s % k + 1 ≤ k := Nat.mod_lt s hk
  rw [Nat.div_lt_iff_lt_mul hk]
  calc s % k * nanosPerSecond + n < (s % k + 1) * nanosPerSecond := by rw [Nat.succ_mul]; omega
    _ ≤ k * nanosPerSecond := Nat.mul_le_mul_right _ hmod
    _ = nanosPerSecond * k := Nat.mul_comm _ _

/-- Words are divided as the span is. -/
theorem div_words (s n : Nat) {k : Nat} (hk : 0 < k) :
    nanosPerSecond * (s / k) + (s % k * nanosPerSecond + n) / k = (nanosPerSecond * s + n) / k := by
  have hsplit : nanosPerSecond * s + n =
      k * (nanosPerSecond * (s / k)) + (s % k * nanosPerSecond + n) :=
    calc nanosPerSecond * s + n = nanosPerSecond * (k * (s / k) + s % k) + n := by
          rw [Nat.div_add_mod]
      _ = k * (nanosPerSecond * (s / k)) + (s % k * nanosPerSecond + n) := by ring
  rw [hsplit, Nat.mul_add_div hk]

/-- A span divides by any count but zero: every word that comes up fits. -/
theorem exists_divide? (d : SpanWords) {k : UInt32} (hk : k ≠ 0) :
    ∃ q, d.divide? k = some q ∧ q.toSpan = ⟨d.toSpan.nanos / k.toNat⟩ := by
  have hpos : 0 < k.toNat := Nat.pos_of_ne_zero fun h => hk (UInt32.toNat_inj.1 h)
  have hlt := k.toNat_lt
  have hword : nanosPerSecond < UInt32.size := by decide
  have hless := @left_div_lt d.seconds.toNat d.nanos.toNat k.toNat hpos d.nanos_lt
  have hsum := div_add_left_div (d.seconds.toNat % k.toNat * nanosPerSecond) d.nanos.toNat hpos
  have hseconds := Nat.mod_lt d.seconds.toNat hpos
  have hnanos := Nat.mod_lt d.nanos.toNat hpos
  -- each word in the order it comes up, with its number
  obtain ⟨carried, hcarried, hcarriedNat⟩ :=
    @exists_word? ((d.seconds % k.toUInt64).toNat * nanosPerSecond) (by
      simp only [UInt64.toNat_mod, UInt32.toNat_toUInt64, nanosPerSecond, UInt64.size]
      omega)
  rw [UInt64.toNat_mod, UInt32.toNat_toUInt64] at hcarriedNat
  obtain ⟨left, hleft, hleftNat⟩ := @exists_word? (carried.toNat + (d.nanos % k).toNat) (by
    simp only [hcarriedNat, UInt32.toNat_mod, nanosPerSecond, UInt64.size]
    omega)
  rw [hcarriedNat, UInt32.toNat_mod] at hleftNat
  obtain ⟨more, hmore, hmoreNat⟩ := @exists_shortWord? (left / k.toUInt64).toNat (by
    rw [UInt64.toNat_div, UInt32.toNat_toUInt64, hleftNat]
    exact Nat.lt_trans (Nat.lt_of_le_of_lt (Nat.le_add_left _ _) (hsum ▸ hless)) hword)
  rw [UInt64.toNat_div, UInt32.toNat_toUInt64, hleftNat] at hmoreNat
  obtain ⟨nanos, hnanos, hnanosNat⟩ := @exists_shortWord? ((d.nanos / k).toNat + more.toNat) (by
    rw [UInt32.toNat_div, hmoreNat, hsum]
    exact Nat.lt_trans hless hword)
  rw [UInt32.toNat_div, hmoreNat, hsum] at hnanosNat
  refine ⟨⟨d.seconds / k.toUInt64, nanos, hnanosNat ▸ hless⟩, ?_, ?_⟩
  · simp only [divide?, if_neg hk, hcarried, hleft, hmore, hnanos, Option.bind_eq_bind,
      Option.bind_some]
    exact ofWords?_of_lt _
  · simp only [toSpan, UInt64.toNat_div, UInt32.toNat_toUInt64, hnanosNat]
    rw [div_words _ _ hpos]

/-! ## Repetition -/

/-- Words are multiplied as the span is. -/
theorem mul_words (s n k : Nat) :
    nanosPerSecond * (s * k + n * k / nanosPerSecond) + n * k % nanosPerSecond =
      (nanosPerSecond * s + n) * k := by
  rw [Nat.mul_add, Nat.add_assoc, Nat.div_add_mod, Nat.add_mul, Nat.mul_assoc]

/-- A span is repeated as long as the whole result is a span. -/
theorem map_times? (d : SpanWords) (k : UInt32) :
    (d.times? k).map toSpan = d.toSpan.times? k.toNat := by
  obtain ⟨nanos, hnanos, hnanosNat⟩ := @exists_word? (d.nanos.toNat * k.toNat) (by
    calc d.nanos.toNat * k.toNat ≤ nanosPerSecond * 2 ^ 32 :=
          Nat.mul_le_mul (Nat.le_of_lt d.nanos_lt) (Nat.le_of_lt k.toNat_lt)
      _ < UInt64.size := by decide)
  have hmod : nanos.toNat % nanosPerSecond < nanosPerSecond := Nat.mod_lt _ (by decide)
  obtain ⟨rest, hrest, hrestNat⟩ :=
    @exists_shortWord? (nanos.toNat % nanosPerSecond) (Nat.lt_trans hmod (by decide))
  have hrestLt : rest.toNat < nanosPerSecond := hrestNat ▸ hmod
  rw [hnanosNat] at hmod hrestNat
  have hproduct := mul_words d.seconds.toNat d.nanos.toNat k.toNat
  simp only [times?, hnanos, hnanosNat, Option.bind_eq_bind, Option.bind_some]
  simp only [Span.times?, toSpan, ← hproduct, add_lt_limit_iff hmod]
  by_cases hfits :
      d.seconds.toNat * k.toNat + d.nanos.toNat * k.toNat / nanosPerSecond < UInt64.size
  · obtain ⟨seconds, hseconds, hsecondsNat⟩ :=
      exists_word? (Nat.lt_of_le_of_lt (Nat.le_add_right _ _) hfits)
    obtain ⟨total, htotal, htotalNat⟩ := exists_word? hfits
    rw [if_pos hfits, hseconds, Option.bind_some, hsecondsNat, htotal, Option.bind_some,
      ← hnanosNat, hrest, Option.bind_some, ofWords?_of_lt hrestLt]
    simp only [Option.map_some, toSpan, htotalNat, hrestNat, hnanosNat]
  · rw [if_neg hfits]
    by_cases hmul : d.seconds.toNat * k.toNat < UInt64.size
    · obtain ⟨seconds, hseconds, hsecondsNat⟩ := exists_word? hmul
      rw [hseconds, Option.bind_some, hsecondsNat, word?_eq_none (Nat.le_of_not_lt hfits)]
      rfl
    · rw [word?_eq_none (Nat.le_of_not_lt hmul)]
      rfl

end SpanWords

end Vigil
