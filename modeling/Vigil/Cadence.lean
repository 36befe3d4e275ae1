import Vigil.Rule

/-!
# Cadence

Ticks are numbered by whole base intervals since the start of 1970. A rule runs
on every tick whose number its frequency divides, and the evaluations of one tick
are spread evenly over it.
-/

namespace Vigil.Cadence

/-- Ticks between two evaluations of a rule, all lengths in seconds. The interval
is first raised to the minimum. -/
def frequency (interval min base : Int) : Except EngineError Int :=
  let interval := max interval min
  if base ≤ 0 ∨ interval ≤ 0 ∨ interval % base ≠ 0 then .error (.invalidInterval interval base)
  else .ok (interval / base)

def isDue (tick frequency : Int) : Bool := 0 < frequency && tick % frequency == 0

/-- The number of the tick at `t`. -/
def tickNumber (t : Moment) (base : Int) : Int := t.seconds / base

/-- The rule with its interval raised to the minimum. -/
def raise (min : Int) (r : Rule) : Rule :=
  if min ≤ r.intervalSeconds then r else { r with intervalSeconds := min }

/-- The delay of the `i`-th of `n` evaluations of one tick. -/
def delay (base : Span) (n i : Nat) : Span := ⟨base.nanos / n * i⟩

end Vigil.Cadence
