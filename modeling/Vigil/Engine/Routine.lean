import Vigil.Engine.Calls
import Vigil.Mailbox

/-!
# Rule routines

Each rule has a routine that takes evaluations and version updates from its
mailboxes until it is told to stop. Wherever it waits, for a message, an
evaluator, the store or the notifier, it is in one of the phases below, and a
step takes it from one phase to the next (`Worker.step?`). A routine whose rule
was deleted erases the rule's instances before it exits.

No step looks at the stop signal twice, and only a look notices a stop. A routine
looks before it calls an evaluator and whenever the evaluator, having had to wait,
can go on. In between evaluators are built and put to work, one attempt after the
other, whether or not the stop signal fires meanwhile.
-/

namespace Vigil

/-- An evaluation at work: which one, since when, and how many attempts failed. -/
structure Job where
  evaluation : Evaluation
  /-- Milliseconds since the start of the engine. -/
  startedAt : Nat
  failures : Nat := 0
  /-- The evaluator waits for something. Before it goes on there is a look at the stop
  signal. -/
  suspended : Bool := false

/-- What a routine goes on with once its rule's instances are erased. -/
inductive Resume where
  | exit
  | adopt (version : Int)
  | evaluate (evaluation : Evaluation)

inductive Phase where
  | idle
  /-- The evaluation is taken. Before an evaluator is asked for there is a look at the stop
  signal. -/
  | taken (evaluation : Evaluation)
  /-- The store is erasing the rule's rows. -/
  | erasing (erasure : Erasure) (next : Resume)
  /-- The notifier is taking the closing batch. -/
  | closing (next : Resume)
  /-- The evaluator is being built. -/
  | building (job : Job)
  /-- The evaluator is at work. -/
  | evaluating (job : Job)
  /-- The verdicts are in and counted. -/
  | concluded (job : Job) (verdicts : List Verdict)
  /-- The store is dropping stale rows. -/
  | evicting (job : Job) (processed : List Instance) (eviction : Eviction)
  /-- The notifier is taking the batch of an evaluation. -/
  | sending (job : Job)
  | exited
  | crashed

/-- What a phase was waiting for. -/
inductive Input where
  /-- Look at the stop signal and the mailboxes. -/
  | wake
  /-- Look at the stop signal, and call the evaluator or let it go on if there is no stop. -/
  | look
  /-- The evaluator has to wait. -/
  | suspend
  /-- Go on with verdicts that are in. -/
  | proceed
  | built (outcome : Except EngineError Unit)
  | evaluated (outcome : Except EngineError (List Verdict))
  /-- The store has answered the call with this number. -/
  | stored (which : Nat) (ok : Bool)
  | delivered

/-- A handle with the routine behind it. -/
structure Worker where
  handle : Handle
  phase : Phase := .idle
  /-- The rule version the instances belong to; none is zero. -/
  version : Int := 0
  lastRule : Option Rule := none

namespace Worker

def new (k : RuleKey) : Worker := { handle := { key := k } }

def key (w : Worker) : RuleKey := w.handle.key

/-- Whether the routine has been started and has neither exited nor crashed. -/
def isLive (w : Worker) : Bool :=
  match w.phase with
  | .exited | .crashed => false
  | _ => true

/-- Back to the mailboxes after an evaluation. -/
def release (w : Worker) : Worker := { w with handle := w.handle.finish, phase := .idle }

/-- Asks for an evaluator. -/
def request (w : Worker) (job : Job) (d : Shared) : Worker × Shared :=
  let r := job.evaluation.rule
  ({ w with phase := .building job }, d.log (.evaluatorRequested r.org r.toCondition))

/-- Starts on an evaluation, unless it is too late for it. -/
def start (w : Worker) (root : Option StopReason) (e : Evaluation) (d : Shared) :
    Worker × Shared :=
  if w.handle.isStopped root then (w.release, d)
  else w.request { evaluation := e, startedAt := d.uptime } d

/-- Takes up the version of an evaluation, with its rule. -/
def take (w : Worker) (e : Evaluation) : Worker :=
  { w with version := e.rule.version, lastRule := some e.rule, phase := .taken e }

def resume (w : Worker) (next : Resume) (d : Shared) : Worker × Shared :=
  match next with
  | .exit => ({ w with phase := .exited }, d.log (.routineStopped w.key))
  | .adopt version => ({ w with version, phase := .idle }, d)
  | .evaluate e => (w.take e, d)

/-- Sends the closing batch of the instances that were removed, if any was
active. -/
def closeAlerts (w : Worker) (removed : List Instance) (next : Resume) (d : Shared) :
    Worker × Shared :=
  let alerts := Alert.closing removed d.clock d.scheduler.appUrl
  if alerts.isEmpty then w.resume next d
  else ({ w with phase := .closing next }, d.send w.key alerts)

/-- Removes the rule's instances and goes on with `next`. -/
def clear (w : Worker) (next : Resume) (d : Shared) : Worker × Shared :=
  let (erasure, d) := d.erase w.key w.lastRule
  if erasure.isDone then w.closeAlerts erasure.removed next d
  else ({ w with phase := .erasing erasure next }, d)

def onStop (w : Worker) (r : StopReason) (d : Shared) : Worker × Shared :=
  match r with
  | .ruleDeleted => w.clear .exit d
  | .shutdown => w.resume .exit d

/-- Only a higher version counts. -/
def onUpdate (w : Worker) (version : Int) (d : Shared) : Worker × Shared :=
  if version ≤ w.version then (w, d)
  else if 0 < w.version then w.clear (.adopt version) d
  else ({ w with version }, d)

/-- An evaluation of another version starts from nothing. -/
def onEvaluation (w : Worker) (e : Evaluation) (d : Shared) : Worker × Shared :=
  if e.rule.version ≠ w.version ∧ 0 < w.version then w.clear (.evaluate e) d
  else (w.take e, d)

/-- Looks at the stop signal, then at the updates, then at the evaluations. -/
def wake? (w : Worker) (root : Option StopReason) (d : Shared) : Option (Worker × Shared) :=
  match w.handle.reason root with
  | some r => some (w.onStop r d)
  | none =>
    if w.handle.updatePermit then
      let (update, handle) := { w.handle with updatePermit := false }.takeUpdate
      let w := { w with handle }
      match update with
      | some version => some (w.onUpdate version d)
      | none => some (w, d)
    else if w.handle.evaluationPermit then
      let (evaluation, handle) := { w.handle with evaluationPermit := false }.begin
      let w := { w with handle }
      match evaluation with
      | some e => some (w.onEvaluation e d)
      | none => some (w, d)
    else none

/-- Counts an evaluation and keeps its verdicts. -/
def conclude (w : Worker) (job : Job) (vs : List Verdict) (failed : Bool) (d : Shared) :
    Worker × Shared :=
  let took := Span.ofMillis (d.uptime - job.startedAt)
  ({ w with phase := .concluded job vs },
    { d with metrics :=
        d.metrics.recordEvaluation job.evaluation.rule.org took (failed || hasErrors vs) })

/-- Tries again after a failed attempt; the last failure is the verdict. -/
def retry (w : Worker) (job : Job) (error : EngineError) (d : Shared) : Worker × Shared :=
  let job := { job with failures := job.failures + 1 }
  if job.failures < max d.scheduler.maxAttempts 1 then w.request job d
  else
    let took := Span.ofMillis (d.uptime - job.startedAt)
    w.conclude job [.ofError error job.evaluation.scheduledAt took] true d

/-- Reports that an evaluation is applied and done with. -/
def complete (w : Worker) (job : Job) (d : Shared) : Worker × Shared :=
  (w.release, d.log (.applied w.key job.evaluation.scheduledAt))

/-- Sends the instances that are due. -/
def notify (w : Worker) (job : Job) (processed : List Instance) (d : Shared) : Worker × Shared :=
  match Alert.due? d.state.resendDelay processed with
  | none => ({ w with phase := .crashed }, d)
  | some [] => w.complete job d
  | some sent =>
    let alerts := sent.map (Alert.ofInstance · d.scheduler.appUrl)
    ({ w with phase := .sending job }, { d with cache := d.cache.markSent sent }.send w.key alerts)

/-- Applies the verdicts of an evaluation. -/
def absorb (w : Worker) (job : Job) (vs : List Verdict) (d : Shared) : Worker × Shared :=
  let e := job.evaluation
  let folder := if d.scheduler.disableFolderLabel then none else some e.folder
  match d.round e.rule vs (e.rule.reservedLabels folder) with
  | (none, d) => ({ w with phase := .crashed }, d)
  | (some (processed, eviction), d) =>
    if eviction.isDone then w.notify job processed d
    else ({ w with phase := .evicting job processed eviction }, d)

/-- A look before an evaluator goes on that had to wait in `phase`. A stop cancels the
evaluation. -/
def look? (w : Worker) (root : Option StopReason) (phase : Job → Phase) (job : Job) (d : Shared) :
    Option (Worker × Shared) :=
  if !job.suspended then none
  else if w.handle.isStopped root then some (w.release, d)
  else some ({ w with phase := phase { job with suspended := false } }, d)

/-- The evaluator has to wait in `phase`. -/
def suspend? (w : Worker) (phase : Job → Phase) (job : Job) (d : Shared) :
    Option (Worker × Shared) :=
  if job.suspended then none
  else some ({ w with phase := phase { job with suspended := true } }, d)

/-- One step of the routine, if `input` is what its phase is waiting for. -/
def step? (w : Worker) (root : Option StopReason) (input : Input) (d : Shared) :
    Option (Worker × Shared) :=
  match w.phase, input with
  | .idle, .wake => w.wake? root d
  | .erasing erasure next, .stored which ok =>
    if which < erasure.waiting.length then
      let (erasure, d) := erasure.answer which ok d
      if erasure.isDone then some (w.closeAlerts erasure.removed next d)
      else some ({ w with phase := .erasing erasure next }, d)
    else none
  | .closing next, .delivered => some (w.resume next d)
  | .taken e, .look => some (w.start root e d)
  | .building job, .look => w.look? root .building job d
  | .evaluating job, .look => w.look? root .evaluating job d
  | .building job, .suspend => w.suspend? .building job d
  | .evaluating job, .suspend => w.suspend? .evaluating job d
  | .building job, .built outcome =>
    if job.suspended then none
    else match outcome with
      | .ok () => some ({ w with phase := .evaluating job }, d)
      | .error e => some (w.retry job e d)
  | .evaluating job, .evaluated outcome =>
    if job.suspended then none
    else match outcome with
      | .ok vs => some (w.conclude job vs false d)
      | .error e => some (w.retry job e d)
  | .concluded job vs, .proceed =>
    if w.handle.isStopped root then some (w.release, d) else some (w.absorb job vs d)
  | .evicting job processed eviction, .stored 0 ok =>
    let (eviction, d) := eviction.answer ok d
    if eviction.isDone then some (w.notify job processed d)
    else some ({ w with phase := .evicting job processed eviction }, d)
  | .sending job, .delivered => some (w.complete job d)
  | _, _ => none

end Worker

end Vigil
