import Vigil.Decimal.Scaled
import Vigil.Time

/-!
# Histograms

A histogram counts observations below each of its bounds and keeps their sum.
-/

namespace Vigil

/-- Bounds in increasing order, each with the observations that it is the first
to reach. -/
structure Histogram where
  buckets : List (Float × Nat)
  beyond : Nat := 0
  sum : Float := 0
deriving Inhabited

namespace Histogram

/-- `n` bounds from `start` on, each twice the one before. -/
def doubling (start : Float) : Nat → List Float
  | 0 => []
  | n + 1 => start :: doubling (start * 2) n

def new (bounds : List Float) : Histogram := ⟨bounds.map (·, 0), 0, 0⟩

/-- Adds one to the first bucket whose bound reaches `x`, if any does. -/
def bump (x : Float) : List (Float × Nat) → Option (List (Float × Nat))
  | [] => none
  | (bound, n) :: rest =>
    if x ≤ bound then some ((bound, n + 1) :: rest)
    else (bump x rest).map ((bound, n) :: ·)

def observe (h : Histogram) (x : Float) : Histogram :=
  match bump x h.buckets with
  | some buckets => { h with buckets, sum := h.sum + x }
  | none => { h with beyond := h.beyond + 1, sum := h.sum + x }

def count (h : Histogram) : Nat := h.buckets.foldl (fun n bucket => n + bucket.2) h.beyond

/-- Observations up to each bound. -/
def cumulative (h : Histogram) : List (Float × Nat) :=
  (h.buckets.foldl (fun (total, out) (bound, n) => (total + n, out ++ [(bound, total + n)]))
    (0, [])).2

end Histogram

/-- A span as a float of seconds. -/
def Span.toFloat (d : Span) : Float :=
  (UInt64.ofNat d.seconds).toFloat + (UInt64.ofNat (d.nanos % nanosPerSecond)).toFloat / 1000000000

end Vigil
