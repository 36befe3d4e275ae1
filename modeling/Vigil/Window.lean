import Vigil.Verdict

/-!
# Windows of recent evaluations

An instance remembers its latest evaluations, oldest first, up to a capacity of
at least one. A full window drops its oldest point for a new one. The capacity of a
new window has a limit (`Window.new?`), that of a resized one has none.
-/

namespace Vigil

/-- One remembered evaluation. -/
structure Point where
  time : Moment
  status : Status
  values : Values := ∅

structure Window where
  points : List Point
  capacity : Nat
  capacity_pos : 0 < capacity
  length_le : points.length ≤ capacity

namespace Window

/-- An empty window; it has room for one point at least. -/
def new (capacity : Nat) : Window :=
  ⟨[], max capacity 1, by omega, by simp⟩

instance : Inhabited Window := ⟨new 1⟩

/-- Room for all points is set aside at the start, 40 bytes each and `2 ^ 63 - 1` in
all at most. -/
def maxInitialCapacity : Nat := (1 <<< 63 - 1) / 40

/-- An empty window, if there is room for it. -/
def new? (capacity : Nat) : Option Window :=
  if capacity ≤ maxInitialCapacity then some (new capacity) else none

/-- The newest `n` points. -/
def newest (n : Nat) (ps : List Point) : List Point := ps.drop (ps.length - n)

theorem length_newest_le (n : Nat) (ps : List Point) : (newest n ps).length ≤ n := by
  simp [newest]
  omega

def push (w : Window) (p : Point) : Window :=
  { w with
    points := newest (w.capacity - 1) w.points ++ [p]
    length_le := by
      have := length_newest_le (w.capacity - 1) w.points
      have := w.capacity_pos
      simp
      omega }

/-- Makes room for `capacity` points; what no longer fits is the oldest. -/
def resize (w : Window) (capacity : Nat) : Window :=
  ⟨newest (max capacity 1) w.points, max capacity 1, by omega, length_newest_le ..⟩

def last? (w : Window) : Option Point := w.points.getLast?

def length (w : Window) : Nat := w.points.length

def isEmpty (w : Window) : Bool := w.points.isEmpty

def isFull (w : Window) : Bool := w.capacity ≤ w.points.length

/-- One line on the window. -/
def summary (w : Window) : String :=
  let last := match w.last? with
    | some p => "Some(" ++ p.status.text ++ ")"
    | none => "None"
  "ResultHistory \x7b capacity: " ++ toString w.capacity ++ ", len: " ++ toString w.length
    ++ ", last: " ++ last ++ ", .. \x7d"

/-- The capacity for a rule: as many evaluations as its hold period spans, or
`default` for a rule without hold period or interval. -/
def capacityFor (holdFor interval : Span) (default : Nat) : Nat :=
  if holdFor.isZero || interval.isZero then default
  else max (holdFor.seconds / max interval.seconds 1) 1

end Window

end Vigil
