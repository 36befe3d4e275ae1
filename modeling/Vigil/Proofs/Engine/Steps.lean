import Vigil.Proofs.Engine.Routine
import Vigil.Proofs.Round.Times

/-!
# What a routine changes

A routine keeps its key, its stop signal and, away from its mailboxes, the evaluation
that waits there. It goes on with the evaluation that it took until the verdicts are
applied (`Phase.upcoming?`), and takes up no other. Of what routines share it leaves the
settings and the time alone, and it dates instances only by verdicts that it applies
(`Worker.dates`). Each function of the routine keeps this (`Worker.Moves`), and so does
each of its steps (`Worker.moves_step`, `Worker.moves_wake`).
-/

namespace Vigil

/-! ## What is shared -/

/-- A relation to the data before that notes keep, be it one or one after the other. -/
structure Shared.IsFrame (R : Shared → Shared → Prop) : Prop where
  refl : ∀ d, R d d
  trans : ∀ {d d' d''}, R d'' d' → R d' d → R d'' d
  annotate : ∀ d a, R (d.annotate a) d

namespace Shared.IsFrame

variable {R : Shared → Shared → Prop}

theorem foldl (hR : IsFrame R) {f : Shared → α → Shared} (hf : ∀ d x, R (f d x) d)
    (xs : List α) (d : Shared) : R (xs.foldl f d) d := by
  induction xs generalizing d with
  | nil => exact hR.refl d
  | cons x xs ih => exact hR.trans (ih (f d x)) (hf d x)

theorem annotateClosing (hR : IsFrame R) (d : Shared) (r : Rule) (now : Moment) (i : Instance) :
    R (d.annotateClosing r now i) d := by
  unfold Shared.annotateClosing
  split
  · exact hR.annotate d _
  · exact hR.refl d

theorem close (hR : IsFrame R) (e : Erasure) (d : Shared) : R (e.close d) d := by
  unfold Erasure.close
  split
  · exact hR.foldl (fun d' i => hR.annotateClosing d' _ _ i) _ d
  · exact hR.refl d

end Shared.IsFrame

/-- Settings and time stay, and instances are dated anew only as `dated` says. -/
structure Shared.Follows (d' d : Shared) (dated : RuleKey → Moment → Prop) : Prop where
  scheduler : d'.scheduler = d.scheduler
  uptime : d'.uptime = d.uptime
  cache : d'.cache.Follows d.cache dated

namespace Shared

variable {d d' d'' : Shared} {dated : RuleKey → Moment → Prop}

theorem Follows.refl (d : Shared) (dated : RuleKey → Moment → Prop) : Follows d d dated :=
  ⟨rfl, rfl, .refl _ dated⟩

theorem Follows.trans (h' : Follows d'' d' Cache.undated) (h : Follows d' d dated) :
    Follows d'' d dated :=
  ⟨h'.scheduler.trans h.scheduler, h'.uptime.trans h.uptime, h'.cache.trans h.cache⟩

theorem Follows.of_undated (h : Follows d' d Cache.undated) : Follows d' d dated :=
  h.trans (.refl d dated)

/-- Entries of the journal, rows of the store and counts date no instance. -/
theorem follows_of_cache_eq (hs : d'.scheduler = d.scheduler) (hu : d'.uptime = d.uptime)
    (hc : d'.cache = d.cache) : Follows d' d dated :=
  ⟨hs, hu, hc ▸ .refl _ dated⟩

theorem follows_log (d : Shared) (e : Event) : Follows (d.log e) d dated :=
  follows_of_cache_eq rfl rfl rfl

theorem follows_deleteRow (d : Shared) (i : Instance) (ok : Bool) :
    Follows (d.deleteRow i ok) d dated := by
  unfold deleteRow
  cases ok
  · exact follows_of_cache_eq rfl rfl rfl
  · exact follows_of_cache_eq rfl rfl rfl

theorem isFrame_follows : IsFrame (Follows · · Cache.undated) :=
  ⟨fun d => .refl d _, Follows.trans, fun d _ => follows_log d _⟩

theorem follows_evictionAnswer (e : Eviction) (ok : Bool) (d : Shared) :
    Follows (e.answer ok d).2 d Cache.undated := by
  unfold Eviction.answer
  split
  · exact .refl d _
  · exact (isFrame_follows.annotateClosing _ _ _ _).trans (follows_deleteRow d _ ok)

theorem follows_erasureAnswer (e : Erasure) (which : Nat) (ok : Bool) (d : Shared) :
    Follows (e.answer which ok d).2 d Cache.undated := by
  unfold Erasure.answer
  split
  · exact .refl d _
  · dsimp only
    split
    · exact (isFrame_follows.close _ _).trans (follows_deleteRow d _ ok)
    · exact follows_deleteRow d _ ok

theorem follows_erase (d : Shared) (k : RuleKey) (rule : Option Rule) :
    Follows (d.erase k rule).2 d Cache.undated :=
  ⟨rfl, rfl, Cache.follows_removeRule d.cache k⟩

theorem follows_round (d : Shared) (r : Rule) (vs : List Verdict) (extra : Labels) :
    Follows (d.round r vs extra).2 d (Verdict.dates vs r) := by
  have hcache := Cache.follows_round d.cache d.state d.clock r vs extra
  unfold round
  split
  · rename_i c hround
    rw [hround] at hcache
    exact ⟨rfl, rfl, hcache⟩
  · rename_i c hround
    rw [hround] at hcache
    exact (isFrame_follows.foldl (fun d' _ => follows_log d' _) _ _).trans ⟨rfl, rfl, hcache⟩

end Shared

/-! ## The routine -/

/-- The evaluation that comes after the erasure. -/
def Resume.evaluation? : Resume → Option Evaluation
  | .evaluate e => some e
  | _ => none

namespace Phase

/-- The evaluation that the routine took and whose verdicts are still to be applied. -/
def upcoming? : Phase → Option Evaluation
  | .erasing _ next | .closing next => next.evaluation?
  | .taken e => some e
  | .building job | .evaluating job | .concluded job _ => some job.evaluation
  | _ => none

/-- What the routine goes on with after the next step. -/
def onward? : Phase → Option Evaluation
  | .concluded _ _ => none
  | p => p.upcoming?

/-- The verdicts that are in are of the time that was asked about. -/
def Timely : Phase → Prop
  | .concluded job vs => ∀ v ∈ vs, v.time = job.evaluation.scheduledAt
  | _ => True

end Phase

/-- What an evaluator finds is of the time that it was asked about. -/
def Input.isTimely (input : Input) (p : Phase) : Bool :=
  match input, p with
  | .evaluated (.ok vs), .evaluating job => vs.all (·.time == job.evaluation.scheduledAt)
  | _, _ => true

namespace Worker

/-- The dates that the next step brings, unless the routine is told to stop. -/
def dates (w : Worker) (root : Option StopReason) (k : RuleKey) (t : Moment) : Prop :=
  w.handle.isStopped root = false ∧
    ∃ job vs, w.phase = .concluded job vs ∧ Verdict.dates vs job.evaluation.rule k t

/-- From `w` and `d` to `w'` and `d'` without a look at the mailboxes, on with `e` if
with anything. Verdicts that come in are timely if what the routine gets is. -/
structure Moves (timely : Prop) (e : Option Evaluation) (dated : RuleKey → Moment → Prop)
    (w : Worker) (d : Shared) (w' : Worker) (d' : Shared) : Prop where
  key : w'.key = w.key
  stop : w'.handle.stop = w.handle.stop
  pending : w'.handle.pending = w.handle.pending
  upcoming : ∀ e', w'.phase.upcoming? = some e' → e = some e'
  timely : timely → w'.phase.Timely
  shared : d'.Follows d dated

variable {root : Option StopReason} {w w' : Worker} {d d' d₀ : Shared} {e : Option Evaluation}
  {timely : Prop} {dated : RuleKey → Moment → Prop}

/-- Nothing comes after a phase with nothing upcoming. -/
theorem upcoming_of_none {p : Phase} (h : p.upcoming? = none) :
    ∀ e', p.upcoming? = some e' → e = some e' := by
  intro e' he
  cases h.symm.trans he

/-- What has been done to the shared data before comes first. -/
theorem Moves.after (h : Moves timely e Cache.undated w d w' d') (h₀ : d.Follows d₀ dated) :
    Moves timely e dated w d₀ w' d' :=
  { h with shared := h.shared.trans h₀ }

/-- A function that leaves the handle alone. -/
theorem moves_of_handle_eq (hh : w'.handle = w.handle)
    (hup : ∀ e', w'.phase.upcoming? = some e' → e = some e') (ht : timely → w'.phase.Timely)
    (hs : d'.Follows d dated) : Moves timely e dated w d w' d' :=
  ⟨congrArg Handle.key hh, congrArg Handle.stop hh, congrArg Handle.pending hh, hup, ht, hs⟩

theorem moves_release (w : Worker) (d : Shared) : Moves timely e dated w d w.release d :=
  ⟨rfl, rfl, rfl, upcoming_of_none rfl, fun _ => trivial, .refl d _⟩

theorem moves_request (w : Worker) (job : Job) (d : Shared) :
    Moves timely (some job.evaluation) Cache.undated w d (w.request job d).1
      (w.request job d).2 :=
  moves_of_handle_eq rfl (fun _ h => h) (fun _ => trivial) (Shared.follows_log d _)

theorem moves_start (w : Worker) (e : Evaluation) (d : Shared) :
    Moves timely (some e) Cache.undated w d (w.start root e d).1 (w.start root e d).2 := by
  unfold start
  split
  · exact moves_release w d
  · exact moves_request w { evaluation := e, startedAt := d.uptime } d

theorem moves_take (w : Worker) (e : Evaluation) (d : Shared) :
    Moves timely (some e) Cache.undated w d (w.take e) d :=
  moves_of_handle_eq rfl (fun _ h => h) (fun _ => trivial) (.refl d _)

theorem moves_resume (w : Worker) (next : Resume) (d : Shared) :
    Moves timely next.evaluation? Cache.undated w d (w.resume next d).1
      (w.resume next d).2 := by
  cases next with
  | exit =>
      exact moves_of_handle_eq rfl (upcoming_of_none rfl) (fun _ => trivial)
        (Shared.follows_log d _)
  | adopt version =>
      exact moves_of_handle_eq rfl (upcoming_of_none rfl) (fun _ => trivial) (.refl d _)
  | evaluate e => exact moves_take w e d

theorem moves_closeAlerts (w : Worker) (removed : List Instance) (next : Resume) (d : Shared) :
    Moves timely next.evaluation? Cache.undated w d (w.closeAlerts removed next d).1
      (w.closeAlerts removed next d).2 := by
  unfold closeAlerts
  dsimp only
  split
  · exact moves_resume w next d
  · exact moves_of_handle_eq rfl (fun _ h => h) (fun _ => trivial) (Shared.follows_log d _)

theorem moves_clear (w : Worker) (next : Resume) (d : Shared) :
    Moves timely next.evaluation? Cache.undated w d (w.clear next d).1
      (w.clear next d).2 := by
  have herase := Shared.follows_erase d w.key w.lastRule
  unfold clear
  dsimp only
  split
  · exact (moves_closeAlerts w _ next _).after herase
  · exact moves_of_handle_eq rfl (fun _ h => h) (fun _ => trivial) herase

theorem moves_onStop (w : Worker) (r : StopReason) (d : Shared) :
    Moves timely none Cache.undated w d (w.onStop r d).1 (w.onStop r d).2 := by
  unfold onStop
  split
  · exact moves_clear w .exit d
  · exact moves_resume w .exit d

theorem moves_onUpdate (hp : w.phase = .idle) (version : Int) (d : Shared) :
    Moves timely none Cache.undated w d (w.onUpdate version d).1
      (w.onUpdate version d).2 := by
  have hidle : ∀ e', w.phase.upcoming? = some e' → none = some e' :=
    upcoming_of_none (congrArg Phase.upcoming? hp)
  have htimely : timely → w.phase.Timely := by
    rw [hp]
    exact fun _ => trivial
  unfold onUpdate
  split
  · exact moves_of_handle_eq rfl hidle htimely (.refl d _)
  split
  · exact moves_clear w (.adopt version) d
  · exact moves_of_handle_eq rfl hidle htimely (.refl d _)

theorem moves_onEvaluation (w : Worker) (e : Evaluation) (d : Shared) :
    Moves timely (some e) Cache.undated w d (w.onEvaluation e d).1
      (w.onEvaluation e d).2 := by
  unfold onEvaluation
  split
  · exact moves_clear w (.evaluate e) d
  · exact moves_take w e d

theorem moves_conclude (w : Worker) (job : Job) {vs : List Verdict} (failed : Bool) (d : Shared)
    (hvs : timely → ∀ v ∈ vs, v.time = job.evaluation.scheduledAt) :
    Moves timely (some job.evaluation) Cache.undated w d (w.conclude job vs failed d).1
      (w.conclude job vs failed d).2 :=
  moves_of_handle_eq rfl (fun _ h => h) hvs (Shared.follows_of_cache_eq rfl rfl rfl)

/-- The verdict on a failure is of the time of the evaluation. -/
theorem moves_retry (w : Worker) (job : Job) (error : EngineError) (d : Shared) :
    Moves timely (some job.evaluation) Cache.undated w d (w.retry job error d).1
      (w.retry job error d).2 := by
  unfold retry
  dsimp only
  split
  · exact moves_request w { job with failures := job.failures + 1 } d
  · refine moves_conclude w { job with failures := job.failures + 1 } true d fun _ v hv => ?_
    rw [List.mem_singleton.1 hv]
    rfl

theorem moves_complete (w : Worker) (job : Job) (d : Shared) :
    Moves timely e Cache.undated w d (w.complete job d).1 (w.complete job d).2 :=
  ⟨rfl, rfl, rfl, upcoming_of_none rfl, fun _ => trivial, Shared.follows_log d _⟩

theorem moves_notify (w : Worker) (job : Job) (processed : List Instance) (d : Shared) :
    Moves timely e Cache.undated w d (w.notify job processed d).1
      (w.notify job processed d).2 := by
  unfold notify
  split
  · exact moves_of_handle_eq rfl (upcoming_of_none rfl) (fun _ => trivial) (.refl d _)
  · exact moves_complete w job d
  · exact moves_of_handle_eq rfl (upcoming_of_none rfl) (fun _ => trivial)
      ⟨rfl, rfl, Cache.follows_markSent d.cache _⟩

theorem moves_absorb (w : Worker) (job : Job) (vs : List Verdict) (d : Shared) :
    Moves timely e (Verdict.dates vs job.evaluation.rule) w d (w.absorb job vs d).1
      (w.absorb job vs d).2 := by
  unfold absorb
  dsimp only
  have hround := Shared.follows_round d job.evaluation.rule vs
    (job.evaluation.rule.reservedLabels
      (if d.scheduler.disableFolderLabel then none else some job.evaluation.folder))
  split
  · rename_i d₁ h
    rw [h] at hround
    exact moves_of_handle_eq rfl (upcoming_of_none rfl) (fun _ => trivial) hround
  · rename_i processed eviction d₁ h
    rw [h] at hround
    split
    · exact (moves_notify w job processed d₁).after hround
    · exact moves_of_handle_eq rfl (upcoming_of_none rfl) (fun _ => trivial) hround

/-! ## Steps -/

theorem Moves.of_undated (h : Moves timely e Cache.undated w d w' d') :
    Moves timely e dated w d w' d' :=
  { h with shared := h.shared.of_undated }

theorem moves_of_some_eq {result : Worker × Shared}
    (hr : Moves timely e Cache.undated w d result.1 result.2) (h : some result = some (w', d')) :
    Moves timely e dated w d w' d' := by
  cases h
  exact hr.of_undated

/-- **A step away from the mailboxes.** -/
theorem moves_step {input : Input} (hidle : w.phase ≠ .idle)
    (h : w.step? root input d = some (w', d')) :
    Moves (input.isTimely w.phase = true) w.phase.onward? (w.dates root) w d w' d' := by
  obtain ⟨r, rfl, rfl, hadvances⟩ := exists_advance hidle h
  cases hadvances with
  | @erases erasure next which ok hphase =>
      rw [hphase]
      have hanswer := Shared.follows_erasureAnswer erasure which ok d
      refine .of_undated (moves_of_handle_eq rfl ?_ ?_ hanswer)
      · exact fun _ h => h
      · exact fun _ => trivial
  | @closes erasure next which ok hphase =>
      rw [hphase]
      have hanswer := Shared.follows_erasureAnswer erasure which ok d
      exact .of_undated ((moves_closeAlerts w _ next _).after hanswer)
  | @resumes next hphase =>
      rw [hphase]
      exact .of_undated (moves_resume w next d)
  | @starts e hphase =>
      rw [hphase]
      exact .of_undated (moves_start w e d)
  | cancels => exact .of_undated (moves_release w d)
  | pauses hphase hcalled =>
      rw [hphase]
      rcases hcalled with rfl | rfl
      · exact .of_undated (moves_of_handle_eq rfl (fun _ h => h) (fun _ => trivial) (.refl d _))
      · exact .of_undated (moves_of_handle_eq rfl (fun _ h => h) (fun _ => trivial) (.refl d _))
  | builds hphase =>
      rw [hphase]
      refine .of_undated (moves_of_handle_eq rfl ?_ ?_ (.refl d _))
      · exact fun _ h => h
      · exact fun _ => trivial
  | @concludes job vs hphase =>
      rw [hphase]
      refine .of_undated (moves_conclude w job false d fun htimely => ?_)
      simpa [Input.isTimely] using htimely
  | @retries _ job error hphase =>
      rcases hphase with hphase | hphase
      · rw [hphase]
        exact .of_undated (moves_retry w job error d)
      · rw [hphase]
        exact .of_undated (moves_retry w job error d)
  | withdraws => exact .of_undated (moves_release w d)
  | @absorbs job vs hphase hgoes =>
      have habsorb : Moves (Input.isTimely .proceed w.phase = true) w.phase.onward?
          (Verdict.dates vs job.evaluation.rule) w d (w.absorb job vs d).1
          (w.absorb job vs d).2 := moves_absorb w job vs d
      refine { habsorb with shared := ⟨habsorb.shared.scheduler, habsorb.shared.uptime, ?_⟩ }
      exact habsorb.shared.cache.mono fun k t hdates => ⟨hgoes, job, vs, hphase, hdates⟩
  | @evicts job processed eviction ok hphase =>
      rw [hphase]
      have hanswer := Shared.follows_evictionAnswer eviction ok d
      refine .of_undated (moves_of_handle_eq rfl ?_ ?_ hanswer)
      · exact upcoming_of_none rfl
      · exact fun _ => trivial
  | @notifies job processed eviction ok hphase =>
      rw [hphase]
      have hanswer := Shared.follows_evictionAnswer eviction ok d
      exact .of_undated ((moves_notify w job processed _).after hanswer)
  | @completes job hphase =>
      rw [hphase]
      exact .of_undated (moves_complete w job d)

/-- All that a routine between two evaluations does is look. -/
theorem wake?_of_idle {input : Input} (hp : w.phase = .idle)
    (h : w.step? root input d = some (w', d')) : w.wake? root d = some (w', d') := by
  unfold step? at h
  rw [hp] at h
  cases input with
  | wake => exact h
  | _ => exact absurd h nofun

/-- **A look at the mailboxes.** It may take the evaluation that waits, unless there is a
stop. -/
theorem moves_wake (hp : w.phase = .idle) (h : w.wake? root d = some (w', d')) :
    Moves True none Cache.undated w d w' d' ∨
      w.handle.isStopped root = false ∧ ∃ e, w.handle.pending = some e ∧
        Moves True (some e) Cache.undated
          { w with handle := { w.handle with pending := none } } d w' d' := by
  have hidle : ∀ e', w.phase.upcoming? = some e' → none = some e' :=
    upcoming_of_none (congrArg Phase.upcoming? hp)
  have htimely : True → w.phase.Timely := by
    rw [hp]
    exact fun _ => trivial
  unfold wake? at h
  cases hreason : w.handle.reason root with
  | some r =>
      rw [hreason] at h
      exact Or.inl (moves_of_some_eq (moves_onStop w r d) h)
  | none =>
      rw [hreason] at h
      dsimp only at h
      have hunstopped : w.handle.isStopped root = false := by
        rw [Handle.isStopped, hreason]
        rfl
      split at h
      · left
        unfold Handle.takeUpdate at h
        dsimp only at h
        split at h
        · have hmoves : Moves True none Cache.undated _ d w' d' :=
            moves_of_some_eq (moves_onUpdate (by exact hp) _ d) h
          exact { hmoves with }
        · exact moves_of_some_eq ⟨rfl, rfl, rfl, hidle, htimely, .refl d _⟩ h
      split at h
      · cases hpending : w.handle.pending with
        | some e =>
            right
            simp only [Handle.begin, hpending] at h
            have hmoves : Moves True (some e) Cache.undated _ d w' d' :=
              moves_of_some_eq (moves_onEvaluation _ e d) h
            exact ⟨hunstopped, e, rfl, { hmoves with }⟩
        | none =>
            left
            simp only [Handle.begin, hpending] at h
            exact moves_of_some_eq ⟨rfl, rfl, hpending.symm, hidle, htimely, .refl d _⟩ h
      · cases h

end Worker

end Vigil
