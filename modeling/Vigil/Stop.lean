/-!
# Stop signals

A stop source fires once, with a reason. A child source has a signal of its own
and also watches its parent's; its own comes first. An observer that waits for a
stop sees a source that was dropped before it fired as a shutdown, while the
recorded reason stays empty.
-/

namespace Vigil

inductive StopReason where
  | shutdown
  | ruleDeleted
deriving DecidableEq, Repr, Inhabited

def StopReason.text : StopReason → String
  | shutdown => "shutdown"
  | ruleDeleted => "rule deleted"

/-- One source: the reason it fired with, the source it watches, and whether its
owner still holds it. -/
structure StopSource where
  parent : Option Nat := none
  reason : Option StopReason := none
  held : Bool := true
deriving DecidableEq, Repr, Inhabited

/-- Sources by number. An observer of a source is known by the same number. -/
structure StopForest where
  sources : List StopSource := []
deriving DecidableEq, Repr, Inhabited

namespace StopForest

def add (f : StopForest) (parent : Option Nat) : StopForest :=
  ⟨f.sources ++ [{ parent := parent }]⟩

/-- Whether the owner of source `n` still holds it. -/
def isHeld (f : StopForest) (n : Nat) : Bool :=
  match f.sources[n]? with
  | some s => s.held
  | none => false

/-- Fires a source. The first reason stays; the answer says whether this was it. -/
def stop (f : StopForest) (n : Nat) (r : StopReason) : Bool × StopForest :=
  match f.sources[n]? with
  | some s =>
    if s.reason.isSome then (false, f)
    else (true, ⟨f.sources.set n { s with reason := some r }⟩)
  | none => (false, f)

/-- The owner lets go of a source. -/
def drop (f : StopForest) (n : Nat) : StopForest :=
  ⟨f.sources.modify n fun s => { s with held := false }⟩

/-- The reason that one signal carries. -/
def signal (f : StopForest) (n : Nat) : Option StopReason :=
  f.sources[n]?.bind (·.reason)

def parent (f : StopForest) (n : Nat) : Option Nat := f.sources[n]?.bind (·.parent)

/-- The reason to stop that an observer of `n` reads, its own source's first. -/
def reason (f : StopForest) (n : Nat) : Option StopReason :=
  (f.signal n).or ((f.parent n).bind f.signal)

/-- What waiting on one signal yields now. -/
def awaitSignal (f : StopForest) (n : Nat) : Option StopReason :=
  (f.signal n).or (if f.isHeld n then none else some .shutdown)

/-- What waiting for a stop of `n` yields now; nothing while it has to wait on. -/
def await (f : StopForest) (n : Nat) : Option StopReason :=
  (f.awaitSignal n).or ((f.parent n).bind f.awaitSignal)

end StopForest

end Vigil
