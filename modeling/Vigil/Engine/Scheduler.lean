import Vigil.Cadence
import Vigil.Engine.Routine
import Vigil.Registry

/-!
# The scheduler

On every tick the scheduler takes the newest listing of the rules, gives each new
rule a routine, sends an evaluation to the routines that are due, each after a
delay of its own, and stops the routines of the rules that are gone. The steps of
the scheduler, of the routines and of the dispatches on their way are the steps
of one transition system (`System.step?`).
-/

namespace Vigil

/-- An evaluation that waits for its delay. -/
structure Dispatch where
  /-- Dispatches are numbered in the order they were made. -/
  number : Nat
  worker : Nat
  evaluation : Evaluation
  /-- Milliseconds since the start of the engine. -/
  dueAt : Nat

/-- An evaluation that a tick sent on its way. -/
structure Scheduled where
  key : RuleKey
  version : Int
  delay : Span
deriving DecidableEq, Repr

structure TickReport where
  scheduled : List Scheduled
  stopped : List RuleKey
deriving DecidableEq, Repr

structure System where
  shared : Shared
  root : Option StopReason := none
  rules : RuleSet := {}
  registry : Registry Worker := {}
  dispatches : List Dispatch := []
  dispatched : Nat := 0

namespace System

/-- An engine that nothing has happened to. -/
def new (scheduler : SchedulerSettings) (state : StateSettings) (clock : Moment) : System :=
  { shared := { scheduler, state, clock } }

def settings (s : System) : SchedulerSettings := s.shared.scheduler

def recordRules (s : System) (uids : List String) : System :=
  { s with shared := { s.shared with metrics := s.shared.metrics.recordRules uids } }

/-- The evaluation of `r` on the tick at `t`, if it is due. -/
def evaluation? (settings : SchedulerSettings) (folders : Table String String) (t : Moment)
    (r : Rule) : Option Evaluation :=
  let r := Cadence.raise settings.minInterval r
  match Cadence.frequency r.intervalSeconds settings.minInterval settings.base with
  | .error _ => none
  | .ok frequency =>
    if Cadence.isDue (Cadence.tickNumber t settings.base) frequency then
      let folder :=
        if settings.disableFolderLabel then "" else (folders.find? r.namespaceUid).getD ""
      some ⟨t, r, folder⟩
    else none

/-- The evaluations due on the tick at `t`, each with its delay. -/
def due (settings : SchedulerSettings) (rules : RuleSet) (t : Moment) :
    List (Evaluation × Span) :=
  let ready := rules.all.filterMap (evaluation? settings rules.folders t)
  ready.zipIdx.map fun (e, i) =>
    (e, Cadence.delay (.ofSeconds settings.tickSeconds) ready.length i)

/-- A delay in whole milliseconds, rounded up. -/
def roundUp (d : Span) : Nat := (d.nanos + (nanosPerMilli - 1)) / nanosPerMilli

/-- Sends an evaluation on its way to the live routine of its rule. -/
def dispatch (s : System) (e : Evaluation) (delay : Span) : System :=
  match s.registry.find? e.rule.key with
  | none => s
  | some worker =>
    { s with
      dispatches := s.dispatches
        ++ [⟨s.dispatched, worker, e, s.shared.uptime + roundUp delay⟩]
      dispatched := s.dispatched + 1 }

/-- Forgets one rule and tells its routine that it is deleted. -/
def deleteRule (s : System) (k : RuleKey) : System :=
  let (worker, registry) := s.registry.remove k
  { s with
    rules := s.rules.remove k
    registry := match worker with
      | some n => registry.modify n fun w => { w with handle := (w.handle.fire .ruleDeleted).2 }
      | none => registry }

def delete (s : System) (ks : List RuleKey) : System := ks.foldl deleteRule s

/-- Tells the live routine of a rule that the rule has a new version. -/
def update (s : System) (k : RuleKey) (version : Int) : System :=
  match s.registry.find? k with
  | some n =>
    { s with registry := s.registry.modify n fun w =>
        { w with handle := (w.handle.post s.root version).2 } }
  | none => s

/-- Tells every routine to stop. -/
def stopAll (s : System) : System := { s with root := s.root.or (some .shutdown) }

/-- Gives each rule a routine that has none. -/
def startRoutines (s : System) (rules : List Rule) : System :=
  { s with registry := rules.foldl (fun g r => (g.getOrCreate r.key Worker.new).2) s.registry }

/-- The tick at `t`. Without a listing the last one is used again. -/
def tick (s : System) (t : Moment) (listing : Option RuleSet) : TickReport × System :=
  let s := { s with rules := listing.getD s.rules }
  let rules := s.rules.all
  let s := s.recordRules (rules.map (·.uid))
  let gone := s.registry.keys.filter fun k => !s.rules.rules.contains k
  let s := s.startRoutines rules
  let ready := due s.settings s.rules t
  let s := ready.foldl (fun s (e, delay) => s.dispatch e delay) s
  (⟨ready.map fun (e, delay) => ⟨e.rule.key, e.rule.version, delay⟩, gone⟩, s.delete gone)

def isRunning (s : System) (k : RuleKey) : Bool := (s.registry.find? k).isSome

/-- A dispatch goes on: it is cancelled if its routine is told to stop, and else
offered once it is due. An evaluation that comes back is counted as missed. -/
def release? (s : System) (number : Nat) : Option System := do
  let d ← s.dispatches.find? (·.number == number)
  let w ← s.registry.entries[d.worker]?
  let rest := { s with dispatches := s.dispatches.filter (·.number != number) }
  if w.handle.isStopped s.root then some rest
  else if d.dueAt ≤ s.shared.uptime then
    let (outcome, handle) := w.handle.offer s.root d.evaluation
    let rest := { rest with registry := rest.registry.modify d.worker ({ · with handle }) }
    match outcome with
    | .ok (some _) =>
      some { rest with shared :=
        { rest.shared with metrics := rest.shared.metrics.recordMissed w.key } }
    | _ => some rest
  else none

/-- A step of the routine with number `n`. -/
def stepWorker? (s : System) (n : Nat) (input : Input) : Option System := do
  let w ← s.registry.entries[n]?
  let (w, shared) ← w.step? s.root input s.shared
  return { s with shared, registry := s.registry.modify n fun _ => w }

/-- What can happen to the system. -/
inductive Action where
  | setClock (t : Moment)
  | elapse (millis : Nat)
  | tick (t : Moment) (listing : Option RuleSet)
  | delete (ks : List RuleKey)
  | update (k : RuleKey) (version : Int)
  | stopAll
  | release (number : Nat)
  | worker (n : Nat) (input : Input)

def step? (s : System) : Action → Option System
  | .setClock clock => some { s with shared := { s.shared with clock } }
  | .elapse millis => some { s with shared := { s.shared with uptime := s.shared.uptime + millis } }
  | .tick t listing => some (s.tick t listing).2
  | .delete ks => some (s.delete ks)
  | .update k version => some (s.update k version)
  | .stopAll => some s.stopAll
  | .release number => s.release? number
  | .worker n input => s.stepWorker? n input

end System

end Vigil
