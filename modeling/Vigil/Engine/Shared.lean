import Vigil.Alert
import Vigil.Metrics.Alerts
import Vigil.Metrics.Scheduling
import Vigil.Round

/-!
# What routines share

All routines work on one cache, one store, one set of metrics and two clocks: the
wall clock that dates alerts, and the time since the start that measures how long
things take. The journal keeps every call to the outside in the order they were
made.
-/

namespace Vigil

/-- A call to the outside, or a routine's report of where it got to. -/
inductive Event where
  /-- An evaluator was asked for on behalf of an org. -/
  | evaluatorRequested (org : Int) (condition : Condition)
  | alertsSent (key : RuleKey) (alerts : List Alert)
  | applied (key : RuleKey) (scheduledAt : Moment)
  | routineStopped (key : RuleKey)
  | annotated (note : Annotation)
  | rowSaved (key : RuleKey) (hash : String) (ok : Bool)
  | rowDeleted (key : RuleKey) (hash : String) (ok : Bool)
deriving DecidableEq

structure Entry where
  /-- Milliseconds since the start. -/
  time : Nat
  event : Event
deriving DecidableEq

structure Shared where
  scheduler : SchedulerSettings := {}
  state : StateSettings := {}
  clock : Moment
  /-- Milliseconds since the start. -/
  uptime : Nat := 0
  cache : Cache := {}
  store : Store := {}
  metrics : SchedulerMetrics := {}
  gauges : AlertMetrics := {}
  journal : List Entry := []

namespace Shared

def log (d : Shared) (e : Event) : Shared :=
  { d with journal := d.journal ++ [⟨d.uptime, e⟩] }

def annotate (d : Shared) (a : Annotation) : Shared := d.log (.annotated a)

/-- Annotates an instance that goes away, if it is alerting. -/
def annotateClosing (d : Shared) (r : Rule) (now : Moment) (i : Instance) : Shared :=
  if i.status = .alerting then d.annotate (.closing r i now) else d

/-- A row deletion that came back. Only a successful one has an effect. -/
def deleteRow (d : Shared) (i : Instance) (ok : Bool) : Shared :=
  let hash := i.labels.id
  let d := if ok then { d with store := d.store.delete i.org i.ruleUid hash } else d
  d.log (.rowDeleted i.ruleKey hash ok)

/-- A row save that came back. Only a successful one has an effect. -/
def saveRow (d : Shared) (i : Instance) (ok : Bool) : Shared :=
  let row := Row.ofInstance i
  let d := if ok then { d with store := d.store.save row } else d
  d.log (.rowSaved i.ruleKey row.hash ok)

def send (d : Shared) (k : RuleKey) (alerts : List Alert) : Shared :=
  d.log (.alertsSent k alerts)

/-- Writes the gauges of the instance states. -/
def recordGauges (d : Shared) : Shared :=
  { d with gauges := d.gauges.record d.cache.countByStatus }

end Shared

end Vigil
