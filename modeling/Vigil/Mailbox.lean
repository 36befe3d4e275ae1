import Vigil.Rule
import Vigil.Stop

/-!
# Rule handles

The scheduler talks to the routine of a rule through a handle with two mailboxes
and a stop signal. The evaluation mailbox holds one evaluation, and none while
one is running; an offer that finds it taken comes back. The update mailbox holds
one version, the highest sent. Each mailbox has a wake-up permit, which a message
leaves and the waiting routine takes.
-/

namespace Vigil

/-- One evaluation, on its way from the scheduler to a routine. -/
structure Evaluation where
  scheduledAt : Moment
  rule : Rule
  folder : String
deriving DecidableEq, Inhabited

structure Handle where
  key : RuleKey
  stop : Option StopReason := none
  pending : Option Evaluation := none
  running : Bool := false
  evaluationPermit : Bool := false
  update : Option Int := none
  updatePermit : Bool := false
deriving DecidableEq, Inhabited

namespace Handle

/-- The reason to stop, the handle's own before the one for all. -/
def reason (h : Handle) (root : Option StopReason) : Option StopReason := h.stop.or root

def isStopped (h : Handle) (root : Option StopReason) : Bool := (h.reason root).isSome

/-- Offers an evaluation and says what comes back: the evaluation itself if the
routine is busy with another. -/
def offer (h : Handle) (root : Option StopReason) (e : Evaluation) :
    Except EngineError (Option Evaluation) × Handle :=
  if h.isStopped root then (.error .routineStopped, h)
  else if h.running || h.pending.isSome then (.ok (some e), h)
  else (.ok none, { h with pending := some e, evaluationPermit := true })

/-- Sends a version. -/
def post (h : Handle) (root : Option StopReason) (version : Int) :
    Except EngineError Unit × Handle :=
  if h.isStopped root then (.error .routineStopped, h)
  else
    let update := match h.update with
      | some v => max v version
      | none => version
    (.ok (), { h with update := some update, updatePermit := true })

/-- Fires the handle's own signal, unless it has fired before. -/
def fire (h : Handle) (r : StopReason) : Bool × Handle :=
  if h.stop.isSome then (false, h) else (true, { h with stop := some r })

/-- The pending evaluation starts to run. -/
def begin (h : Handle) : Option Evaluation × Handle :=
  match h.pending with
  | some e => (some e, { h with pending := none, running := true })
  | none => (none, h)

def finish (h : Handle) : Handle := { h with running := false }

def takeUpdate (h : Handle) : Option Int × Handle := (h.update, { h with update := none })

end Handle

end Vigil
