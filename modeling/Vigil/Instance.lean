import Vigil.Rule
import Vigil.Window

/-!
# Alert instances

An instance is the tracked condition of one rule under one label set. Verdicts
drive it: a breach makes it pending until it has held long enough and alerting
from then on, a good verdict makes it normal, and missing data and failures go
where the rule's policies send them. An instance that is not normal carries the
moment it entered its state and the moment its alert lapses unless renewed.
-/

namespace Vigil

/-- A state with the verdict that explains it, if the two differ. -/
structure Standing where
  status : Status
  reason : String
deriving DecidableEq, Repr, Inhabited

namespace Standing

def normal : Standing := ⟨.normal, ""⟩

def text (s : Standing) : String :=
  if s.reason.isEmpty then s.status.text else s.status.text ++ " (" ++ s.reason ++ ")"

end Standing

structure Transition where
  previous : Standing
  current : Standing
deriving DecidableEq, Repr

def Transition.changed (t : Transition) : Bool := t.previous != t.current

/-- How long an alert lasts past an evaluation, and how many evaluations an
instance remembers by default. -/
structure TransitionPolicy where
  keepAlive : Span
  maxResults : Nat
deriving DecidableEq, Repr

/-- Where a verdict sends an instance. -/
inductive Target where
  | normal
  | alerting
  | keep (status : Status)
deriving DecidableEq, Repr

/-- A pending verdict is none that an evaluator may give. -/
def Rule.target? (r : Rule) : Status → Option Target
  | .normal => some .normal
  | .alerting => some .alerting
  | .error =>
    match r.onError with
    | .alerting => some .alerting
    | .error => some (.keep .error)
    | .ok => some .normal
  | .noData =>
    match r.onNoData with
    | .alerting => some .alerting
    | .noData => some (.keep .noData)
    | .ok => some .normal
  | .pending => none

structure Instance where
  org : Int
  ruleUid : String
  id : String
  status : Status := .normal
  reason : String := ""
  labels : Labels
  annotations : Table String String
  window : Window
  error : Option String := none
  /-- Whether the last verdict took the instance from alerting to normal. -/
  resolved : Bool := false
  startsAt : Option Moment := none
  endsAt : Option Moment := none
  lastEvaluation : Moment := .epoch
  lastText : String := ""
  lastTook : Span := .zero
  sentAt : Option Moment := none
deriving Inhabited

namespace Instance

/-- An instance that no verdict has reached yet. -/
def new (r : Rule) (labels : Labels) (history : Nat) : Instance :=
  { org := r.org, ruleUid := r.uid, id := labels.id, labels, annotations := r.annotations,
    window := .new history }

/-- A new instance, if there is room for its window. -/
def new? (r : Rule) (labels : Labels) (history : Nat) : Option Instance :=
  if history ≤ Window.maxInitialCapacity then some (new r labels history) else none

def ruleKey (i : Instance) : RuleKey := ⟨i.org, i.ruleUid⟩

def standing (i : Instance) : Standing := ⟨i.status, i.reason⟩

/-- What a verdict did to an instance. -/
inductive Outcome where
  | ignored
  | moved (transition : Transition)
  /-- The alert would lapse after the end of the calendar. -/
  | outOfRange
deriving DecidableEq, Repr

/-- Remembers that `v` was evaluated. -/
def record (i : Instance) (r : Rule) (v : Verdict) (p : TransitionPolicy) : Instance :=
  { i with
    lastEvaluation := v.time
    lastTook := v.took
    lastText := v.text
    window := (i.window.resize (Window.capacityFor r.holdFor r.interval p.maxResults)).push
      ⟨v.time, v.status, v.values⟩ }

/-- The state after a verdict at `t`, and since when it holds. -/
def entry (i : Instance) (r : Rule) (t : Moment) : Target → Status × Option Moment
  | .normal => (.normal, none)
  | .keep s => (s, if i.status ≠ s ∨ i.startsAt = none then some t else i.startsAt)
  | .alerting =>
    match i.status with
    | .alerting => (.alerting, i.startsAt)
    | .pending =>
      if r.holdFor.displacement ≤ t.nanos - (i.startsAt.getD t).nanos then (.alerting, some t)
      else (.pending, i.startsAt)
    | _ => (if r.holdFor.isZero then .alerting else .pending, some t)

/-- When the alert lapses: never for a normal instance. The outer value is
missing if the calendar ends before. -/
def expiry? (p : TransitionPolicy) (t : Moment) : Target → Option (Option Moment)
  | .normal => some none
  | _ => (t.after? p.keepAlive).map some

/-- The error of a failed evaluation, unless the rule counts it as good. -/
def errorOf (v : Verdict) (target : Target) : Option String :=
  if v.status = .error ∧ target ≠ .normal then v.error else none

/-- Missing data and failures are the reason for any other state. -/
def reasonFor (status : Status) (v : Verdict) : String :=
  if status ≠ v.status ∧ v.status ≠ .normal ∧ v.status ≠ .alerting then v.status.text else ""

/-- Applies one verdict. Out of range, what precedes the lapse is already done. -/
def apply (i : Instance) (r : Rule) (v : Verdict) (p : TransitionPolicy) : Instance × Outcome :=
  match r.target? v.status with
  | none => (i, .ignored)
  | some target =>
    let (status, startsAt) := i.entry r v.time target
    let entered := { i.record r v p with status, startsAt }
    match expiry? p v.time target with
    | none => (entered, .outOfRange)
    | some endsAt =>
      let settled := { entered with
        endsAt
        error := errorOf v target
        reason := reasonFor status v
        resolved := i.status == .alerting && status == .normal }
      (settled, .moved ⟨i.standing, settled.standing⟩)

/-- Whether the notifier must hear about the instance after its last
evaluation: at once when it resolved, and else each `resendDelay` while it is
active. -/
def needsSending? (i : Instance) (resendDelay : Span) : Option Bool :=
  if i.resolved then some true
  else if !i.status.isActive then some false
  else match i.sentAt with
    | none => some true
    | some sent => (sent.after? resendDelay).map fun due => due ≤ i.lastEvaluation

/-- Whether the last evaluation is more than `multiplier` intervals ago. -/
def isStale? (i : Instance) (now : Moment) (r : Rule) (multiplier : Nat) : Option Bool := do
  let allowed ← r.interval.times? multiplier
  let limit ← i.lastEvaluation.after? allowed
  return limit < now

end Instance

end Vigil
