import Vigil.Simulation.Collaborators

/-!
# A world on a virtual clock

The engine and its loops run as tasks, one at a time, each until it has to wait.
Tasks that become ready line up behind the others, and time moves on to the next
timer when no task is left. So every run of a world is one of the runs of the
transition system, chosen by the order of the line.
-/

namespace Vigil.Simulation

/-- How a loop came to an end. -/
inductive LoopEnd where
  | stopped
  /-- A moment or a span left its range. -/
  | crashed
  | failed (error : EngineError)

/-- A listing under way: for which tick, and from when until when it takes, in
milliseconds. -/
structure Listing where
  tick : Moment
  startedAt : Nat
  dueAt : Nat

/-- A loop that ticks once a period. -/
structure TickLoop where
  /-- Start of the period that is due next, in milliseconds. -/
  deadline : Nat
  nextTick : Moment
  listing : Option Listing := none
  stopRequested : Bool := false
  outcome : Option LoopEnd := none
  /-- Routines and dispatches that end with the loop if it crashes. -/
  workers : List Nat := []
  dispatches : List Nat := []

/-- A loop that records the gauges and saves the instances. -/
structure UpkeepLoop where
  /-- When either is due next, in milliseconds. -/
  gaugesAt : Nat
  flushAt : Nat
  stopRequested : Bool := false
  outcome : Option LoopEnd := none

inductive Task where
  | tickLoop (n : Nat)
  | upkeepLoop (n : Nat)
  | worker (n : Nat)
  | dispatch (number : Nat)
deriving DecidableEq

structure Timer where
  dueAt : Nat
  task : Task

structure World where
  system : System
  source : Source := {}
  scripts : Table RuleKey Script := ∅
  outages : Outages := []
  annotating : Bool := true
  /-- Evaluators at work: until when, and with what outcome. -/
  evaluators : Table Nat (Nat × Except EngineError (List Verdict)) := ∅
  /-- Timers in the order they were set. -/
  timers : List Timer := []
  line : List Task := []
  tickLoops : List TickLoop := []
  upkeepLoops : List UpkeepLoop := []
  tickLoop : Option Nat := none
  upkeepLoop : Option Nat := none
  /-- The instances that the last call on states returned. -/
  held : List Instance := []

namespace World

def now (w : World) : Nat := w.system.shared.uptime

def setTimer (w : World) (dueAt : Nat) (task : Task) : World :=
  { w with timers := w.timers ++ [⟨dueAt, task⟩] }

def act (w : World) (a : System.Action) : World :=
  { w with system := (w.system.step? a).getD w.system }

def mapShared (w : World) (f : Shared → Shared) : World :=
  { w with system := { w.system with shared := f w.system.shared } }

/-- Sends a routine what its phase waits for. -/
def feed (w : World) (n : Nat) (input : Input) : World := w.act (.worker n input)

/-- Takes the next item of the script for a condition. -/
def nextItem (w : World) (k : RuleKey) : ScriptItem × World :=
  let (item, script) := ((w.scripts.find? k).getD {}).next
  (item, { w with scripts := w.scripts.insert k script })

/-- Moves a routine on by one step. The answer is `false` when it has to wait. -/
def moveWorker (w : World) (n : Nat) : Bool × World :=
  match w.system.registry.entries[n]? with
  | none => (false, w)
  | some worker =>
    let prompt := w.outages.promptStore
    match worker.phase with
    | .idle =>
      if (worker.wake? w.system.root w.system.shared).isSome then (true, w.feed n .wake)
      else (false, w)
    | .erasing erasure _ =>
      (true, w.feed n (.stored 0 (erasure.waiting.head?.all prompt.deletes)))
    | .closing _ | .sending _ => (true, w.feed n .delivered)
    | .taken _ => (true, w.feed n .look)
    | .building job =>
      let r := job.evaluation.rule
      let (item, w) := w.nextItem ⟨r.org, r.condition⟩
      let outcome := item.outcome job.evaluation.scheduledAt
      let dueAt := w.now + item.delay
      let w := if 0 < item.delay then w.setTimer dueAt (.worker n) else w
      (true, { w with evaluators := w.evaluators.insert n (dueAt, outcome) }.feed n
        (.built item.building))
    | .evaluating job =>
      if job.suspended then (true, w.feed n .look)
      else match w.evaluators.find? n with
        | some (dueAt, outcome) =>
          if dueAt ≤ w.now then (true, w.feed n (.evaluated outcome))
          else (false, w.feed n .suspend)
        | none => (false, w)
    | .concluded _ _ => (true, w.feed n .proceed)
    | .evicting _ _ eviction =>
      (true, w.feed n (.stored 0 (eviction.stale.head?.all prompt.deletes)))
    | .exited | .crashed => (false, w)

/-- Runs a routine until it has to wait. -/
def runWorker (n : Nat) : Nat → World → World
  | 0, w => w
  | fuel + 1, w =>
    match w.moveWorker n with
    | (true, w) => runWorker n fuel w
    | (false, w) => w

/-- Sets the timers of dispatches that have to wait. -/
def setDispatchTimers (w : World) (first : Nat) : World :=
  (w.system.dispatches.filter fun d => first ≤ d.number && w.now < d.dueAt).foldl
    (fun w d => w.setTimer d.dueAt (.dispatch d.number)) w

/-- One tick with the listing that the source gives now. -/
def tick (w : World) (t : Moment) : TickReport × World :=
  let listing := w.source.listing?
  let first := w.system.dispatched
  let report := (w.system.tick t listing).1
  (report, (w.act (.tick t listing)).setDispatchTimers first)

def setTickLoop (w : World) (n : Nat) (l : TickLoop) : World :=
  { w with tickLoops := w.tickLoops.set n l }

/-- A crashed tick loop takes its routines and dispatches with it. -/
def crashTickLoop (w : World) (n : Nat) (l : TickLoop) : World :=
  let s := w.system
  let entries := s.registry.entries.mapIdx fun i worker =>
    if l.workers.contains i && worker.isLive then { worker with phase := .crashed } else worker
  let w := { w with system := { s with
    registry := { s.registry with entries }
    dispatches := s.dispatches.filter fun d => !l.dispatches.contains d.number } }
  w.setTickLoop n { l with outcome := some .crashed }

/-- Finishes a tick of a loop, and notes how long it took. -/
def finishTick (w : World) (n : Nat) (l : TickLoop) (t : Moment) (startedAt : Nat) : World :=
  let workers := w.system.registry.entries.length
  let first := w.system.dispatched
  let w := (w.tick t).2
  let w := w.mapShared fun d =>
    { d with metrics := d.metrics.recordTick (.ofMillis (d.uptime - startedAt)) }
  w.setTickLoop n { l with
    listing := none
    workers := l.workers
      ++ (List.range (w.system.registry.entries.length - workers)).map (workers + ·)
    dispatches := l.dispatches
      ++ (List.range (w.system.dispatched - first)).map (first + ·) }

/-- The period of the tick loops, in milliseconds. -/
def period (w : World) : Nat := w.system.settings.tickSeconds * 1000

/-- Moves a tick loop on by one step. The answer is `false` when it has to
wait. -/
def moveTickLoop (w : World) (n : Nat) : Bool × World :=
  match w.tickLoops[n]? with
  | none => (false, w)
  | some l =>
    if l.outcome.isSome then (false, w)
    else match l.listing with
      | some listing =>
        if listing.dueAt ≤ w.now then (true, w.finishTick n l listing.tick listing.startedAt)
        else (false, w)
      | none =>
        if l.stopRequested then
          (false, (w.act .stopAll).setTickLoop n { l with outcome := some .stopped })
        else if l.deadline ≤ w.now then
          let base := w.system.settings.base
          let next := if base.natAbs ≤ (1 <<< 63 - 1) / 1000 then
            l.nextTick.shift? (base * nanosPerSecond) else none
          match next with
          | none => (false, w.crashTickLoop n l)
          | some next =>
            let late := w.now - l.deadline
            let w := w.mapShared fun d =>
              { d with metrics := d.metrics.recordBehind (.ofMillis late) }
            let t := l.nextTick
            let l := { l with nextTick := next, deadline := l.deadline + w.period }
            let (delay, source) := w.source.nextDelay
            let w := { w with source }
            match delay with
            | none => (true, w.finishTick n l t w.now)
            | some ms =>
              let w := w.setTimer (w.now + ms) (.tickLoop n)
              (true, w.setTickLoop n { l with listing := some ⟨t, w.now, w.now + ms⟩ })
        else (false, w.setTimer l.deadline (.tickLoop n))

/-- Runs a tick loop until it has to wait. -/
def runTickLoop (n : Nat) : Nat → World → World
  | 0, w => w
  | fuel + 1, w =>
    match w.moveTickLoop n with
    | (true, w) => runTickLoop n fuel w
    | (false, w) => w

def persist (w : World) : Nat × World :=
  let (saved, shared) := w.outages.promptStore.persist w.system.shared
  (saved, { w with system := { w.system with shared } })

/-- Runs an upkeep loop until it has to wait. -/
def runUpkeepLoop (w : World) (n : Nat) : World :=
  match w.upkeepLoops[n]? with
  | none => w
  | some l =>
    if l.outcome.isSome then w
    else
      let state := w.system.shared.state
      let (l, w) :=
        if l.gaugesAt ≤ w.now then
          let next := l.gaugesAt + max state.metricsIntervalSeconds 1 * 1000
          ({ l with gaugesAt := next },
            (w.mapShared Shared.recordGauges).setTimer next (.upkeepLoop n))
        else (l, w)
      let (l, w) :=
        if l.flushAt ≤ w.now then
          let next := l.flushAt + max state.persistIntervalSeconds 1 * 1000
          ({ l with flushAt := next }, w.persist.2.setTimer next (.upkeepLoop n))
        else (l, w)
      let (l, w) :=
        if l.stopRequested then ({ l with outcome := some .stopped }, w.persist.2) else (l, w)
      { w with upkeepLoops := w.upkeepLoops.set n l }

/-- No task takes more steps than this between two waits. -/
def patience : Nat := 1 <<< 40

def run (w : World) : Task → World
  | .worker n => runWorker n patience w
  | .dispatch number => w.act (.release number)
  | .tickLoop n => runTickLoop n patience w
  | .upkeepLoop n => w.runUpkeepLoop n

/-- The tasks that a message or a stop has made ready. -/
def ready (w : World) : List Task :=
  let s := w.system
  let workers := s.registry.entries.zipIdx.filterMap fun (worker, n) =>
    let awake := match worker.phase with
      | .idle => (worker.wake? s.root s.shared).isSome
      | .building _ | .evaluating _ => worker.handle.isStopped s.root
      | _ => false
    if awake then some (Task.worker n) else none
  let dispatches := s.dispatches.filterMap fun d =>
    let stopped := match s.registry.entries[d.worker]? with
      | some worker => worker.handle.isStopped s.root
      | none => false
    if stopped || d.dueAt ≤ w.now then some (Task.dispatch d.number) else none
  workers ++ dispatches

/-- Lines up the tasks that have become ready. -/
def lineUp (w : World) : World :=
  { w with line := w.line ++ w.ready.filter fun t => !w.line.contains t }

/-- Runs the line until it is empty. -/
def drain : Nat → World → World
  | 0, w => w
  | fuel + 1, w =>
    match w.line with
    | [] => w
    | task :: rest => drain fuel (({ w with line := rest }.run task).lineUp)

/-- Runs everything that can run without time passing. -/
def settle (w : World) : World := drain patience w.lineUp

/-- Moves time to `t` and lines up the tasks whose timers have run out, in the
order of time, and within a millisecond in the order they were set. -/
def moveTo (w : World) (t : Nat) : World :=
  let w := w.act (.elapse (t - w.now))
  let expired := (w.timers.filter (·.dueAt ≤ t)).mergeSort fun a b => a.dueAt ≤ b.dueAt
  let fresh := (expired.map (·.task)).filter fun task => !w.line.contains task
  { w with
    timers := w.timers.filter (t < ·.dueAt)
    line := w.line ++ fresh.eraseDups }

/-- The next time at which a timer runs out. -/
def nextTimer? (w : World) : Option Nat :=
  ((w.timers.map (·.dueAt)).filter (w.now < ·)).min?

/-- Lets time pass up to `t`; `fuel` timers at most run out on the way. What is due
at `t` itself is lined up but not run. -/
def passTo (t : Nat) : Nat → World → World
  | 0, w => w.moveTo t
  | fuel + 1, w =>
    match w.nextTimer? with
    | some due => if due < t then passTo t fuel (w.moveTo due).settle else w.moveTo t
    | none => w.moveTo t

/-- Lets time pass while nothing else is done. -/
def sleepUntil (w : World) (t : Nat) : World := passTo t (t - w.now) w

end World

end Vigil.Simulation
