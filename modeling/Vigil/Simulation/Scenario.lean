import Vigil.Simulation.Report

/-!
# Scenarios

A scenario is a list of commands to a world: to its collaborators, its clocks, the
scheduler and the states of the instances. Each command is carried out, then
everything that can run without time passing runs, and then its answer is taken.
-/

namespace Vigil.Simulation

inductive Command where
  | setClock (t : Moment)
  | setRules (rules : List Rule) (folders : Option (Table String String))
  | setSource (failure : Option String) (delays : Option (List Nat))
  | setOutages (what : List String)
  | loadRows (org : Int) (rows : List Row)
  | script (key : RuleKey) (items : List ScriptItem) (fallback : Option ScriptItem)
  | tick (t : Moment)
  | advance (millis : Nat)
  | update (key : RuleKey) (version : Int)
  | delete (keys : List RuleKey)
  | stopAll
  | status (keys : List RuleKey)
  | ruleKeys
  | metrics
  | startTicking
  | stopTicking
  | startUpkeep
  | stopUpkeep
  | nudge
  | process (rule : Rule) (verdicts : List Verdict) (extra : Labels)
  | notify (appUrl : Option String)
  | markSent
  | put (instances : Option (List Instance))
  | instances (org : Int) (uid : Option String)
  | get (key : RuleKey) (labels : Labels)
  | remove (key : RuleKey)
  | reset (key : RuleKey) (rule : Option Rule)
  | warm
  | persist
  | rows
  | recordGauges
  | gauges

structure Overview where
  running : List Bool
  missed : List Nat
  evaluations : List Nat
  failures : List Nat
  runningRules : Nat
  schedulableRules : Nat

inductive Answer where
  | done
  | ticked (report : TickReport)
  | overview (overview : Overview)
  | keys (keys : List RuleKey)
  | lines (lines : List String)
  | stopped
  | instances (instances : List Instance)
  | found (i : Option Instance)
  | alerts (alerts : List Alert) (sent : List String)
  | count (n : Nat)
  | counts (ns : List Int)
  | rows (rows : List Row)
  | failed (error : EngineError)
  /-- A moment or a span left its range, or a window had no room. -/
  | overflow
  /-- There is nothing to stop. -/
  | notRunning

namespace World

def settled (a : Answer) (w : World) : Answer × World := (a, w.settle)

/-- Waits for the delay of the source's next listing. -/
def awaitListing (w : World) : World :=
  let (delay, source) := w.source.nextDelay
  let w := { w with source }
  match delay with
  | some ms => w.sleepUntil (w.now + ms)
  | none => w

def startTicking (w : World) : World :=
  let n := w.tickLoops.length
  let seconds := w.system.shared.clock.seconds
  let l : TickLoop :=
    match Moment.ofSeconds? (seconds - seconds % w.system.settings.base) with
    | some t => { deadline := w.now, nextTick := t }
    | none =>
      { deadline := w.now, nextTick := .epoch
        outcome := some (.failed (.internal "clock out of range")) }
  { w with
    tickLoops := w.tickLoops ++ [l]
    tickLoop := some n
    line := w.line ++ [Task.tickLoop n] }

/-- Tells a tick loop to stop. -/
def requestTickingStop (w : World) (n : Nat) : World :=
  { w with
    tickLoops := w.tickLoops.modify n fun l => { l with stopRequested := true }
    line := w.line ++ [Task.tickLoop n] }

/-- Lets time pass until a tick loop has ended; a listing under way is waited
for. -/
def joinTickLoop (w : World) (n : Nat) : World :=
  let w := w.settle
  match w.tickLoops[n]?.bind (·.listing) with
  | some listing => (w.sleepUntil listing.dueAt).settle
  | none => w

/-- What is answered for a loop that was told to stop. -/
def answerFor : Option LoopEnd → Answer
  | some (.failed e) => .failed e
  | some .crashed => .overflow
  | _ => .stopped

def stopTicking (w : World) : Answer × World :=
  match w.tickLoop with
  | none => (.notRunning, w)
  | some n =>
    let w := (w.requestTickingStop n).joinTickLoop n
    (answerFor (w.tickLoops[n]?.bind (·.outcome)), { w with tickLoop := none })

/-- The steady clock, which stays below `2 ^ 63` seconds, reads this many at the start
of a world. -/
def steadyStart : Nat := 3600

def startUpkeep (w : World) : World :=
  let n := w.upkeepLoops.length
  let period := max w.system.shared.state.persistIntervalSeconds 1
  let l : UpkeepLoop :=
    { gaugesAt := w.now
      flushAt := w.now + period * 1000
      outcome :=
        if 1 <<< 63 ≤ steadyStart + w.now / 1000 + period then some .crashed else none }
  { w with
    upkeepLoops := w.upkeepLoops ++ [l]
    upkeepLoop := some n
    line := w.line ++ [Task.upkeepLoop n] }.setTimer l.flushAt (.upkeepLoop n)

/-- Tells an upkeep loop to stop. -/
def requestUpkeepStop (w : World) (n : Nat) : World :=
  { w with
    upkeepLoops := w.upkeepLoops.modify n fun l => { l with stopRequested := true }
    line := w.line ++ [Task.upkeepLoop n] }

def stopUpkeep (w : World) : Answer × World :=
  match w.upkeepLoop with
  | none => (.notRunning, w)
  | some n =>
    let w := { w.requestUpkeepStop n with upkeepLoop := none }.settle
    (answerFor (w.upkeepLoops[n]?.bind (·.outcome)), w)

def status (w : World) (ks : List RuleKey) : Answer × World :=
  let m := w.system.shared.metrics
  let (missed, m) := ks.foldl (fun (ns, m) k =>
    let (n, m) := m.readMissed k
    (ns ++ [n], m)) (([] : List Nat), m)
  let (evaluations, m) := ks.foldl (fun (ns, m) k =>
    let (n, m) := m.readEvaluations k.org
    (ns ++ [n], m)) (([] : List Nat), m)
  let (failures, m) := ks.foldl (fun (ns, m) k =>
    let (n, m) := m.readFailures k.org
    (ns ++ [n], m)) (([] : List Nat), m)
  (.overview {
    running := ks.map w.system.isRunning
    missed, evaluations, failures
    runningRules := w.system.registry.size
    schedulableRules := w.system.rules.size },
    w.mapShared fun d => { d with metrics := m })

def gauges (w : World) : Answer × World :=
  let (ns, m) := Vigil.Status.all.foldl (fun (ns, m) s =>
    let (n, m) := AlertMetrics.read m s
    (ns ++ [n], m)) (([] : List Int), w.system.shared.gauges)
  (.counts ns, w.mapShared fun d => { d with gauges := m })

def process (w : World) (r : Rule) (vs : List Verdict) (extra : Labels) : Answer × World :=
  match w.outages.promptStore.round w.system.shared r vs extra with
  | (none, shared) => (.overflow, { w with system := { w.system with shared } })
  | (some processed, shared) =>
    settled (.instances processed)
      { w with system := { w.system with shared }, held := processed }

def notify (w : World) (appUrl : Option String) : Answer × World :=
  let d := w.system.shared
  match Alert.due? d.state.resendDelay w.held with
  | none => (.overflow, w)
  | some sent =>
    settled (.alerts (sent.map (Alert.ofInstance · appUrl)) (sent.map (·.id)))
      (w.mapShared fun d => { d with cache := d.cache.markSent sent })

/-- By rule and identity. -/
def sortInstances (is : List Instance) : List Instance :=
  sortBy (fun a b => ordering [compare a.ruleKey b.ruleKey, compare a.id b.id]) is

def sortRows (rows : List Row) : List Row :=
  sortBy (fun a b => ordering [compare a.ruleKey b.ruleKey, compare a.hash b.hash]) rows

def remove (w : World) (k : RuleKey) : Answer × World :=
  let (removed, cache) := w.system.shared.cache.removeRule k
  settled (.instances removed)
    ({ w with held := removed }.mapShared fun d => { d with cache })

def reset (w : World) (k : RuleKey) (rule : Option Rule) : Answer × World :=
  let (removed, shared) := w.outages.promptStore.reset w.system.shared k rule
  settled (.instances removed)
    { w with system := { w.system with shared }, held := removed }

/-- Fills the cache from the store. The orgs are asked for before the rules and
the rows after them. -/
def warm (w : World) : Answer × World :=
  let w := w.mapShared fun d => { d with cache := ({} : Cache) }
  if !w.outages.listsOrgs then settled (.count 0) w
  else
    let orgs := w.system.shared.store.orgs
    let w := w.awaitListing
    match w.source.listing? with
    | none => settled (.count 0) w
    | some _ =>
      let store := w.system.shared.store
      let rows := (orgs.filter w.outages.lists).flatMap store.list
      let d := w.system.shared
      match d.cache.restore? d.state w.source.rules rows with
      | none => (.overflow, w)
      | some (n, cache) => settled (.count n) (w.mapShared fun d => { d with cache })

def ask (w : World) : Command → Answer × World
  | .setClock t => settled .done (w.act (.setClock t))
  | .setRules rules folders =>
    settled .done { w with source := { w.source with
      rules, folders := folders.getD w.source.folders } }
  | .setSource failure delays =>
    settled .done { w with source := { w.source with
      failure, delays := delays.getD w.source.delays } }
  | .setOutages outages => settled .done { w with outages }
  | .loadRows org rows =>
    settled .done (w.mapShared fun d => { d with store := rows.foldl (·.file org) d.store })
  | .script key items fallback =>
    let script := (w.scripts.find? key).getD {}
    let script : Script :=
      { queue := script.queue ++ items, fallback := fallback.getD script.fallback }
    settled .done { w with scripts := w.scripts.insert key script }
  | .tick t =>
    let (report, w) := w.awaitListing.tick t
    settled (.ticked report) w
  | .advance millis => settled .done (w.sleepUntil (w.now + millis))
  | .update key version => settled .done (w.act (.update key version))
  | .delete keys => settled .done (w.act (.delete keys))
  | .stopAll => settled .done (w.act .stopAll)
  | .status keys => w.status keys
  | .ruleKeys =>
    match w.source.keys with
    | .ok keys => settled (.keys keys) w
    | .error e => settled (.failed e) w
  | .metrics =>
    let d := w.system.shared
    settled (.lines (Metrics.exposition (d.metrics.families ++ d.gauges.families))) w
  | .startTicking =>
    let w := match w.tickLoop with
      | some n => w.requestTickingStop n
      | none => w
    settled .done w.startTicking
  | .stopTicking => w.stopTicking
  | .startUpkeep =>
    let w := match w.upkeepLoop with
      | some n => w.requestUpkeepStop n
      | none => w
    settled .done w.startUpkeep
  | .stopUpkeep => w.stopUpkeep
  | .nudge => settled .done w
  | .process rule verdicts extra => w.process rule verdicts extra
  | .notify appUrl => w.notify appUrl
  | .markSent =>
    settled .done (w.mapShared fun d => { d with cache := d.cache.markSent w.held })
  | .put instances =>
    let is := instances.getD w.held
    settled .done (w.mapShared fun d => { d with cache := is.foldl Cache.set d.cache })
  | .instances org uid =>
    let cache := w.system.shared.cache
    let is := match uid with
      | some uid => (cache.ofRule ⟨org, uid⟩).values
      | none => cache.inOrg org
    settled (.instances (sortInstances is)) w
  | .get key labels => settled (.found (w.system.shared.cache.get? key labels.id)) w
  | .remove key => w.remove key
  | .reset key rule => w.reset key rule
  | .warm => w.warm
  | .persist =>
    let (n, w) := w.persist
    settled (.count n) w
  | .rows => settled (.rows (sortRows (w.system.shared.store.filed.map (·.2)))) w
  | .recordGauges => settled .done (w.mapShared Shared.recordGauges)
  | .gauges => w.gauges

/-- Carries out one command and reports what happened since the last. -/
def step (w : World) (c : Command) : (Answer × Report) × World :=
  let (answer, w) := w.ask c
  ((answer, .ofJournal w.annotating w.system.shared.journal),
    w.mapShared fun d => { d with journal := [] })

/-- Whether a run goes on after this answer. -/
def goesOn : Answer → Bool
  | .overflow => false
  | _ => true

end World

end Vigil.Simulation
