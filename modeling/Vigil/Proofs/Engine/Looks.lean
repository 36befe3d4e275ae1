import Vigil.Proofs.Engine.Clearing

/-!
# What a look comes upon

A look at the mailboxes comes upon a stop, a version, an evaluation or nothing
(`Worker.Look`). To make room for what comes next a routine drops the instances of its rule,
waits for their rows to go and then sends the closing batch (`Worker.clear_eq`,
`Worker.erasing_cases`, `Worker.closeAlerts_eq`). Nothing else is sent on the way, and time
and settings stand still (`Shared.Still`).
-/

namespace Vigil

/-! ## What is sent -/

/-- The batch for the notifier that an event is about, with the rule that it is of. -/
def Event.batch? : Event → Option (RuleKey × List Alert)
  | .alertsSent k alerts => some (k, alerts)
  | _ => none

namespace Shared

/-- The batches sent so far. -/
def batches (d : Shared) : List (RuleKey × List Alert) := d.journal.filterMap (·.event.batch?)

theorem batches_log (d : Shared) (e : Event) :
    (d.log e).batches = d.batches ++ e.batch?.toList := by
  unfold batches log
  rw [List.filterMap_append]
  cases h : e.batch? <;> simp [h]

theorem batches_send (d : Shared) (k : RuleKey) (alerts : List Alert) :
    (d.send k alerts).batches = d.batches ++ [(k, alerts)] := d.batches_log _

/-- The batch that ends the active instances among those that were removed, if any was. -/
def closings (d : Shared) (k : RuleKey) (removed : List Instance) :
    List (RuleKey × List Alert) :=
  let active := removed.filter (·.status.isActive)
  if active = [] then []
  else [(k, active.map fun i =>
    { Alert.ofInstance i d.scheduler.appUrl with endsAt := some d.clock })]

theorem closings_eq (d : Shared) (k : RuleKey) (removed : List Instance) :
    d.closings k removed =
      if Alert.closing removed d.clock d.scheduler.appUrl = [] then []
      else [(k, Alert.closing removed d.clock d.scheduler.appUrl)] := by
  simp only [closings, Alert.closing, List.map_eq_nil_iff]

/-- From `d` to `d'` nothing is sent, the clock stands still and so do the settings. -/
structure Still (d' d : Shared) : Prop where
  clock : d'.clock = d.clock
  scheduler : d'.scheduler = d.scheduler
  batches : d'.batches = d.batches

variable {d d' d'' : Shared}

theorem Still.refl (d : Shared) : Still d d := ⟨rfl, rfl, rfl⟩

theorem Still.closings_eq (h : Still d' d) (k : RuleKey) (removed : List Instance) :
    d'.closings k removed = d.closings k removed := by
  unfold closings
  rw [h.clock, h.scheduler]

theorem Still.trans (h' : Still d'' d') (h : Still d' d) : Still d'' d :=
  ⟨h'.clock.trans h.clock, h'.scheduler.trans h.scheduler, h'.batches.trans h.batches⟩

theorem still_log (d : Shared) {e : Event} (he : e.batch? = none) : Still (d.log e) d := by
  refine ⟨rfl, rfl, ?_⟩
  rw [batches_log, he, Option.toList_none, List.append_nil]

theorem isFrame_still : IsFrame Still := ⟨Still.refl, Still.trans, fun d _ => still_log d rfl⟩

theorem still_deleteRow (d : Shared) (i : Instance) (ok : Bool) : Still (d.deleteRow i ok) d := by
  cases ok
  · exact still_log d rfl
  · have hlog : Still (d.deleteRow i true)
        { d with store := d.store.delete i.org i.ruleUid i.labels.id } := still_log _ rfl
    exact ⟨hlog.clock, hlog.scheduler, hlog.batches⟩

theorem still_erasureAnswer (e : Erasure) (which : Nat) (ok : Bool) (d : Shared) :
    Still (e.answer which ok d).2 d := by
  unfold Erasure.answer
  split
  · exact .refl d
  · dsimp only
    split
    · exact (isFrame_still.close ..).trans (still_deleteRow ..)
    · exact still_deleteRow ..

end Shared

theorem Erasure.removed_answer (e : Erasure) (which : Nat) (ok : Bool) (d : Shared) :
    (e.answer which ok d).1.removed = e.removed := by
  unfold answer
  split
  · rfl
  · rfl

/-- A handle once the versions in its mailbox have been looked at. -/
def Handle.withoutUpdate (h : Handle) : Handle := { h with updatePermit := false, update := none }

/-- A handle once the evaluation in its mailbox has been looked for. -/
def Handle.withoutEvaluation (h : Handle) (running : Bool) : Handle :=
  { h with evaluationPermit := false, pending := none, running }

namespace Worker

variable {root : Option StopReason} {w : Worker} {d : Shared} {next : Resume}
  {r : Worker × Shared}

/-! ## Clearing -/

theorem batches_resume (w : Worker) (next : Resume) (d : Shared) :
    (w.resume next d).2.batches = d.batches := by
  cases next with
  | exit => exact (Shared.still_log d rfl).batches
  | adopt version => rfl
  | evaluate e => rfl

/-- The instances go at once; only if there are any the routine waits for their rows. -/
theorem clear_eq (w : Worker) (next : Resume) (d : Shared) :
    w.clear next d =
      if (d.cache.ofRule w.key).values = [] then
        w.resume next (d.erase w.key w.lastRule).2
      else
        let removed := (d.cache.ofRule w.key).values
        ({ w with phase := .erasing ⟨w.lastRule, removed, removed⟩ next },
          (d.erase w.key w.lastRule).2) := by
  have herase : (d.erase w.key w.lastRule).1 =
      ⟨w.lastRule, (d.cache.ofRule w.key).values, (d.cache.ofRule w.key).values⟩ := rfl
  unfold clear
  dsimp only
  rw [herase, Erasure.isDone]
  cases (d.cache.ofRule w.key).values with
  | nil => rfl
  | cons i is => rfl

theorem closeAlerts_eq (w : Worker) (removed : List Instance)
    (next : Resume) (d : Shared) :
    w.closeAlerts removed next d =
      if Alert.closing removed d.clock d.scheduler.appUrl = [] then w.resume next d
      else ({ w with phase := .closing next },
        d.send w.key (Alert.closing removed d.clock d.scheduler.appUrl)) := by
  unfold closeAlerts
  dsimp only
  simp only [List.isEmpty_iff]

theorem batches_closeAlerts (w : Worker) (removed : List Instance)
    (next : Resume) (d : Shared) :
    (w.closeAlerts removed next d).2.batches =
      d.batches ++ d.closings w.key removed := by
  rw [closeAlerts_eq, Shared.closings_eq]
  split
  · rw [batches_resume, List.append_nil]
  · exact d.batches_send w.key _

/-- While rows are to go, all that counts is an answer of the store. -/
theorem erasing_cases {erasure : Erasure} {input : Input}
    (hphase : w.phase = .erasing erasure next) (h : w.step? root input d = some r) :
    ∃ which ok, which < erasure.waiting.length ∧
      r = if (erasure.answer which ok d).1.waiting = [] then
          w.closeAlerts erasure.removed next (erasure.answer which ok d).2
        else ({ w with phase := .erasing (erasure.answer which ok d).1 next },
          (erasure.answer which ok d).2) := by
  unfold step? at h
  rw [hphase] at h
  cases input with
  | stored which ok =>
      dsimp only at h
      split at h
      next hwhich =>
          refine ⟨which, ok, hwhich, ?_⟩
          rw [Erasure.removed_answer] at h
          simp only [Erasure.isDone, List.isEmpty_iff] at h
          split at h
          next hdone => rw [if_pos hdone, Option.some.inj h]
          next hdone => rw [if_neg hdone, Option.some.inj h]
      next => cases h
  | _ => cases h

/-- With the closing batch on its way, all that counts is that it has arrived. -/
theorem closing_cases {input : Input} (hphase : w.phase = .closing next)
    (h : w.step? root input d = some r) : r = w.resume next d := by
  unfold step? at h
  rw [hphase] at h
  cases input with
  | delivered => exact (Option.some.inj h).symm
  | _ => cases h

theorem update_resume (w : Worker) (next : Resume) (d : Shared) :
    (w.resume next d).1.handle.update = w.handle.update := by
  cases next with
  | exit => rfl
  | adopt version => rfl
  | evaluate e => rfl

theorem update_closeAlerts (w : Worker) (removed : List Instance)
    (next : Resume) (d : Shared) :
    (w.closeAlerts removed next d).1.handle.update = w.handle.update := by
  rw [closeAlerts_eq]
  split
  · exact update_resume w next d
  · rfl

theorem update_clear (w : Worker) (next : Resume) (d : Shared) :
    (w.clear next d).1.handle.update = w.handle.update := by
  rw [clear_eq]
  split
  · exact update_resume w next _
  · rfl

theorem ids_clear (w : Worker) (next : Resume) (d : Shared) :
    (w.clear next d).2.cache.ids w.key = [] :=
  (spares_clear w next d).ids.trans (Cache.ids_removeRule d.cache w.key)

/-! ## Looks -/

/-- What a look at the mailboxes comes upon, and what comes of it. -/
inductive Look (root : Option StopReason) (w : Worker) (d : Shared) : Worker × Shared → Prop where
  | stop {r : StopReason} (hr : w.handle.reason root = some r) : Look root w d (w.onStop r d)
  | update {version : Int} (hv : w.handle.update = some version) :
      Look root w d ({ w with handle := w.handle.withoutUpdate }.onUpdate version d)
  | noUpdate (hv : w.handle.update = none) :
      Look root w d ({ w with handle := w.handle.withoutUpdate }, d)
  | evaluation {e : Evaluation} (he : w.handle.pending = some e) :
      Look root w d
        ({ w with handle := w.handle.withoutEvaluation true }.onEvaluation e d)
  | noEvaluation (he : w.handle.pending = none) :
      Look root w d ({ w with handle := w.handle.withoutEvaluation w.handle.running }, d)

theorem look_of_wake (h : w.wake? root d = some r) : Look root w d r := by
  unfold wake? at h
  split at h
  next reason hr =>
      rw [← Option.some.inj h]
      exact .stop hr
  next =>
      split at h
      · cases hv : w.handle.update with
        | some version =>
            simp only [Handle.takeUpdate, hv] at h
            rw [← Option.some.inj h]
            exact .update hv
        | none =>
            simp only [Handle.takeUpdate, hv] at h
            rw [← Option.some.inj h]
            exact .noUpdate hv
      split at h
      · cases he : w.handle.pending with
        | some e =>
            simp only [Handle.begin, he] at h
            rw [← Option.some.inj h]
            exact .evaluation he
        | none =>
            simp only [Handle.begin, he] at h
            rw [← Option.some.inj h]
            exact .noEvaluation he
      · cases h

end Worker

end Vigil
