import Vigil.Time

/-!
# Clocks set by hand

A clock shows the time of a dial. A copy of a clock shows the same dial, so moving
one moves the other.
-/

namespace Vigil

structure Clocks where
  /-- The time on each dial. -/
  dials : List Moment := []
  /-- The number of the dial that each clock shows. -/
  faces : List Nat := []
deriving DecidableEq, Inhabited

namespace Clocks

/-- Adds a clock with a dial of its own. -/
def add (c : Clocks) (t : Moment) : Clocks :=
  ⟨c.dials ++ [t], c.faces ++ [c.dials.length]⟩

/-- Adds a copy of clock `n`. -/
def copy (c : Clocks) (n : Nat) : Clocks :=
  { c with faces := c.faces ++ (c.faces[n]?).toList }

def time? (c : Clocks) (n : Nat) : Option Moment := c.faces[n]?.bind (c.dials[·]?)

def set (c : Clocks) (n : Nat) (t : Moment) : Clocks :=
  match c.faces[n]? with
  | some dial => { c with dials := c.dials.set dial t }
  | none => c

/-- Moves clock `n` on by a span, unless its time would leave the calendar. -/
def advance? (c : Clocks) (n : Nat) (d : Span) : Option Clocks :=
  match c.time? n with
  | some t => (t.after? d).map (c.set n)
  | none => some c

/-- The time of every clock. -/
def times (c : Clocks) : List Moment := c.faces.filterMap (c.dials[·]?)

end Clocks

end Vigil
