/-!
# Moments and spans

A moment is a signed count of nanoseconds since the start of 1970, a span an
unsigned one. Both are bounded: sums that leave the calendar and products that
leave the range of spans have no value.
-/

namespace Vigil

def nanosPerMicro : Nat := 1000
def nanosPerMilli : Nat := 1000000
def nanosPerSecond : Nat := 1000000000

/-- An unsigned length of time. -/
structure Span where
  nanos : Nat
deriving DecidableEq, Repr, Inhabited

namespace Span

def zero : Span := ⟨0⟩

/-- A span is shorter than this many nanoseconds: 2^64 seconds. -/
def limit : Nat := (1 <<< 64) * nanosPerSecond

/-- The longest span that converts to a displacement: 2^63 - 1 milliseconds. -/
def longestDisplacement : Nat := (1 <<< 63 - 1) * nanosPerMilli

-- the unit comes first, so that a count of unknown size stays one product
def ofSeconds (n : Nat) : Span := ⟨nanosPerSecond * n⟩
def ofMillis (n : Nat) : Span := ⟨nanosPerMilli * n⟩
def ofMicros (n : Nat) : Span := ⟨nanosPerMicro * n⟩

/-- The sum of whole seconds and of nanoseconds, unless that is no span. -/
def ofParts? (seconds nanos : Nat) : Option Span :=
  let d : Span := ⟨seconds * nanosPerSecond + nanos⟩
  if d.nanos < limit then some d else none

/-- Whole seconds, rounded down. -/
def seconds (d : Span) : Nat := d.nanos / nanosPerSecond

/-- Whole microseconds, rounded down. -/
def micros (d : Span) : Nat := d.nanos / nanosPerMicro

def isZero (d : Span) : Bool := d.nanos == 0

/-- The span repeated `k` times, unless that is no span. -/
def times? (d : Span) (k : Nat) : Option Span :=
  if d.nanos * k < limit then some ⟨d.nanos * k⟩ else none

/-- The span as a signed number of nanoseconds. One that is too long for a
displacement counts as none at all. -/
def displacement (d : Span) : Int :=
  if d.nanos ≤ longestDisplacement then d.nanos else 0

end Span

/-- A point in time, in nanoseconds since the start of 1970. -/
structure Moment where
  nanos : Int
deriving DecidableEq, Repr, Inhabited

namespace Moment

/-- The start of the first day of the calendar, in the year -262143. -/
def firstSecond : Int := -8334601228800

/-- The last second of the calendar, in the year 262142. -/
def lastSecond : Int := 8210266876799

def first : Moment := ⟨firstSecond * nanosPerSecond⟩
def last : Moment := ⟨lastSecond * nanosPerSecond + 999999999⟩

def epoch : Moment := ⟨0⟩

instance : LE Moment := ⟨fun a b => a.nanos ≤ b.nanos⟩
instance : LT Moment := ⟨fun a b => a.nanos < b.nanos⟩
instance (a b : Moment) : Decidable (a ≤ b) := inferInstanceAs (Decidable (a.nanos ≤ b.nanos))
instance (a b : Moment) : Decidable (a < b) := inferInstanceAs (Decidable (a.nanos < b.nanos))

/-- The moment at `n` nanoseconds, if the calendar has it. -/
def ofNanos? (n : Int) : Option Moment :=
  if first.nanos ≤ n ∧ n ≤ last.nanos then some ⟨n⟩ else none

def ofMicros? (n : Int) : Option Moment := ofNanos? (n * nanosPerMicro)

def ofSeconds? (n : Int) : Option Moment := ofNanos? (n * nanosPerSecond)

/-- Whole seconds, rounded toward the past. -/
def seconds (t : Moment) : Int := t.nanos / nanosPerSecond

/-- Whole milliseconds, rounded toward the past. -/
def millis (t : Moment) : Int := t.nanos / nanosPerMilli

/-- Whole microseconds, rounded toward the past. -/
def micros (t : Moment) : Int := t.nanos / nanosPerMicro

/-- The moment one displacement later, if the calendar has it. -/
def shift? (t : Moment) (d : Int) : Option Moment := ofNanos? (t.nanos + d)

/-- The moment one span later. A span too long for a displacement moves
nothing. -/
def after? (t : Moment) (d : Span) : Option Moment := t.shift? d.displacement

theorem shift?_eq_some_iff {t u : Moment} {d : Int} :
    t.shift? d = some u ↔
      u.nanos = t.nanos + d ∧ first.nanos ≤ u.nanos ∧ u.nanos ≤ last.nanos := by
  cases u
  simp only [shift?, ofNanos?, Option.ite_none_right_eq_some, Option.some.injEq, Moment.mk.injEq]
  constructor
  · rintro ⟨h, rfl⟩
    exact ⟨rfl, h⟩
  · rintro ⟨rfl, h⟩
    exact ⟨h, rfl⟩

end Moment

end Vigil
