import Vigil.Proofs.Engine.Stopping

/-!
# Evaluations at work

A routine takes an evaluation from its mailbox and has it at work until it is done
(`Phase.evaluation?`). A step takes the evaluation up, counts it once its verdicts are in,
gives it up because of a stop, or completes and reports it. Every other step leaves the
evaluation where it is, and counts and reports nothing (`Worker.Handles`,
`Worker.handles_step`).
-/

namespace Vigil

namespace Phase

/-- The evaluation that the routine took and has not finished. -/
def evaluation? : Phase → Option Evaluation
  | .erasing _ next | .closing next => next.evaluation?
  | .taken e => some e
  | .building job | .evaluating job | .concluded job _ | .evicting job _ _ | .sending job =>
    some job.evaluation
  | .idle | .exited | .crashed => none

/-- Whether the evaluation at work has been counted. -/
def isCounted : Phase → Bool
  | .concluded _ _ | .evicting _ _ _ | .sending _ | .crashed => true
  | _ => false

theorem isWorking_eq (p : Phase) : p.isWorking = (p.evaluation?.isSome || p.isCounted) := by
  have hnext : ∀ next : Resume, next.isEvaluation = next.evaluation?.isSome := by
    intro next
    cases next <;> rfl
  cases p with
  | erasing erasure next => exact (hnext next).trans (Bool.or_false _).symm
  | closing next => exact (hnext next).trans (Bool.or_false _).symm
  | _ => rfl

theorem called?_cases {p : Phase} {e : Evaluation} (h : p.called? = some e) :
    p.evaluation? = some e ∧ p.isCounted = false := by
  cases p with
  | building job => exact ⟨h, rfl⟩
  | evaluating job => exact ⟨h, rfl⟩
  | _ => cases h

end Phase

/-- From `d` to `d'` nothing is counted or reported. -/
structure Shared.Quiet (d' d : Shared) : Prop where
  metrics : d'.metrics = d.metrics
  reports : d'.reports = d.reports

theorem Shared.Untouched.quiet {d d' : Shared} (h : d'.Untouched d) : d'.Quiet d :=
  ⟨h.metrics, h.reports⟩

namespace Worker

variable {root : Option StopReason} {w w' : Worker} {d d' : Shared} {input : Input}
  {r : Worker × Shared} {next : Resume} {e : Evaluation} {job : Job}

/-! ## What comes after a clearing -/

/-- From `w` to `w'` a routine goes on with `next`. -/
structure GoesOn (next : Resume) (w w' : Worker) : Prop where
  pending : w'.handle.pending = w.handle.pending
  counted : w'.phase.isCounted = false
  evaluation : w'.phase.evaluation? = next.evaluation?

theorem goesOn_resume (w : Worker) (next : Resume) (d : Shared) :
    GoesOn next w (w.resume next d).1 := by
  cases next with
  | exit => exact ⟨rfl, rfl, rfl⟩
  | adopt version => exact ⟨rfl, rfl, rfl⟩
  | evaluate e => exact ⟨rfl, rfl, rfl⟩

theorem goesOn_closeAlerts (w : Worker) (removed : List Instance) (next : Resume) (d : Shared) :
    GoesOn next w (w.closeAlerts removed next d).1 := by
  rw [closeAlerts_eq]
  split
  · exact goesOn_resume w next d
  · exact ⟨rfl, rfl, rfl⟩

theorem goesOn_clear (w : Worker) (next : Resume) (d : Shared) :
    GoesOn next w (w.clear next d).1 := by
  rw [clear_eq]
  split
  · exact goesOn_resume w next _
  · exact ⟨rfl, rfl, rfl⟩

theorem goesOn_onEvaluation (w : Worker) (e : Evaluation) (d : Shared) :
    GoesOn (.evaluate e) w (w.onEvaluation e d).1 := by
  unfold onEvaluation
  split
  · exact goesOn_clear w (.evaluate e) d
  · exact ⟨rfl, rfl, rfl⟩

theorem quiet_clear (w : Worker) (next : Resume) (d : Shared) :
    (w.clear next d).2.Quiet d :=
  ⟨(untouched_clear w next d).metrics, (untouched_clear w next d).reports⟩

theorem quiet_onEvaluation (w : Worker) (e : Evaluation) (d : Shared) :
    (w.onEvaluation e d).2.Quiet d := by
  unfold onEvaluation
  split
  · exact quiet_clear w (.evaluate e) d
  · exact (Shared.Untouched.refl d).quiet

/-! ## Steps -/

/-- What a step does with the evaluation of its routine, and what it counts and reports. -/
inductive Handles (root : Option StopReason) (w : Worker) (d : Shared) :
    Worker × Shared → Prop where
  | keeps {r : Worker × Shared} (hpending : r.1.handle.pending = w.handle.pending)
      (hwork : r.1.phase.evaluation? = w.phase.evaluation?)
      (hcounted : r.1.phase.isCounted = w.phase.isCounted) (hd : r.2.Quiet d) : Handles root w d r
  | takes {r : Worker × Shared} {e : Evaluation} (hgoes : w.handle.isStopped root = false)
      (hidle : w.phase = .idle) (hfull : w.handle.pending = some e)
      (hempty : r.1.handle.pending = none) (hwork : r.1.phase.evaluation? = some e)
      (hcounted : r.1.phase.isCounted = false) (hd : r.2.Quiet d) : Handles root w d r
  | counts {job : Job} (hwork : w.phase.evaluation? = some job.evaluation)
      (huncounted : w.phase.isCounted = false) (vs : List Verdict) (failed : Bool) :
      Handles root w d (w.conclude job vs failed d)
  | quits {r : Worker × Shared} {e : Evaluation} (hstop : w.handle.isStopped root = true)
      (hpending : r.1.handle.pending = w.handle.pending) (hwork : w.phase.evaluation? = some e)
      (hidle : r.1.phase = .idle) (hd : r.2.Quiet d) : Handles root w d r
  | completes {d' : Shared} {job : Job} (hwork : w.phase.evaluation? = some job.evaluation)
      (hcounted : w.phase.isCounted = true) (hd : d'.Quiet d) :
      Handles root w d (w.complete job d')
  | crashes {r : Worker × Shared} (hpending : r.1.handle.pending = w.handle.pending)
      (hcounted : w.phase.isCounted = true) (hcrash : r.1.phase = .crashed) (hd : r.2.Quiet d) :
      Handles root w d r

theorem GoesOn.handles (h : GoesOn next w r.1) (hwork : w.phase.evaluation? = next.evaluation?)
    (hcounted : w.phase.isCounted = false) (hd : r.2.Quiet d) : Handles root w d r :=
  .keeps h.pending (h.evaluation.trans hwork.symm) (h.counted.trans hcounted.symm) hd

/-- A look that reads no reason to stop. -/
theorem handles_look (hidle : w.phase = .idle) (hgoes : w.handle.isStopped root = false)
    (h : Look root w d r) : Handles root w d r := by
  have hwork : w.phase.evaluation? = none := by
    rw [hidle]
    rfl
  have hcounted : w.phase.isCounted = false := by
    rw [hidle]
    rfl
  cases h with
  | stop hr =>
      rw [Handle.isStopped, hr] at hgoes
      cases hgoes
  | @update version _ =>
      unfold onUpdate
      split
      · exact .keeps rfl rfl rfl (Shared.Untouched.refl d).quiet
      split
      · have hon := goesOn_clear { w with handle := w.handle.withoutUpdate } (.adopt version) d
        have hon' : GoesOn (.adopt version) w _ := ⟨hon.pending, hon.counted, hon.evaluation⟩
        exact hon'.handles hwork hcounted (quiet_clear _ _ d)
      · exact .keeps rfl rfl rfl (Shared.Untouched.refl d).quiet
  | noUpdate => exact .keeps rfl rfl rfl (Shared.Untouched.refl d).quiet
  | @evaluation e he =>
      have hon := goesOn_onEvaluation { w with handle := w.handle.withoutEvaluation true } e d
      exact .takes hgoes hidle he hon.pending hon.evaluation hon.counted (quiet_onEvaluation _ e d)
  | noEvaluation he =>
      exact .keeps he.symm rfl rfl (Shared.Untouched.refl d).quiet

theorem handles_onStop (hidle : w.phase = .idle) (reason : StopReason) (d : Shared) :
    Handles root w d (w.onStop reason d) := by
  have hwork : w.phase.evaluation? = Resume.exit.evaluation? := by
    rw [hidle]
    rfl
  have hcounted : w.phase.isCounted = false := by
    rw [hidle]
    rfl
  cases reason with
  | ruleDeleted => exact (goesOn_clear w .exit d).handles hwork hcounted (quiet_clear w _ d)
  | shutdown =>
      exact (goesOn_resume w .exit d).handles hwork hcounted (untouched_resume w _ d).quiet

theorem handles_retry (hcalled : w.phase.called? = some job.evaluation) (error : EngineError)
    (d : Shared) : Handles root w d (w.retry job error d) := by
  obtain ⟨hwork, hcounted⟩ := Phase.called?_cases hcalled
  unfold retry
  dsimp only
  split
  · exact .keeps rfl hwork.symm hcounted.symm (Shared.untouched_log d rfl).quiet
  · have hlast : w.phase.evaluation? =
        some { job with failures := job.failures + 1 }.evaluation := hwork
    exact .counts hlast hcounted _ true

/-- What is due is sent, or nothing is and the evaluation is done. -/
theorem handles_notify (hwork : w.phase.evaluation? = some job.evaluation)
    (hcounted : w.phase.isCounted = true) (processed : List Instance) (hd : d'.Quiet d) :
    Handles root w d (w.notify job processed d') := by
  unfold notify
  split
  · exact .crashes rfl hcounted rfl hd
  · exact .completes hwork hcounted hd
  · refine .keeps rfl hwork.symm hcounted.symm ⟨hd.metrics, ?_⟩
    exact (Shared.untouched_log _ rfl).reports.trans hd.reports

theorem handles_absorb (hwork : w.phase.evaluation? = some job.evaluation)
    (hcounted : w.phase.isCounted = true) (vs : List Verdict) (d : Shared) :
    Handles root w d (w.absorb job vs d) := by
  obtain ⟨extra, d₁, hd₁, hcases⟩ := absorb_cases w job vs d
  have hquiet : d₁.Quiet d := ⟨hd₁.metrics, hd₁.reports⟩
  rcases hcases with heq | ⟨rd, -, ⟨eviction, heq⟩ | heq⟩
  · rw [heq]
    exact .crashes rfl hcounted rfl hquiet
  · rw [heq]
    exact .keeps rfl hwork.symm hcounted.symm hquiet
  · rw [heq]
    exact handles_notify hwork hcounted rd.processed hquiet

/-- **What a step does with an evaluation.** -/
theorem handles_step (h : w.step? root input d = some r) : Handles root w d r := by
  by_cases hidle : w.phase = .idle
  · have hwake := wake?_of_idle hidle h
    cases hreason : w.handle.reason root with
    | some reason =>
        have heq : r = w.onStop reason d := wake_of_reason hreason hwake
        rw [heq]
        exact handles_onStop hidle reason d
    | none =>
        refine handles_look hidle ?_ (look_of_wake hwake)
        rw [Handle.isStopped, hreason]
        rfl
  have hquits : ∀ {job : Job}, w.phase.evaluation? = some job.evaluation →
      w.handle.isStopped root = true → Handles root w d (w.release, d) := fun hwork hstop =>
    .quits hstop rfl hwork rfl (Shared.Untouched.refl d).quiet
  cases advances_step hidle h with
  | @erases erasure next which ok hphase =>
      exact .keeps rfl (congrArg Phase.evaluation? hphase).symm
        (congrArg Phase.isCounted hphase).symm
        (Shared.untouched_erasureAnswer erasure which ok d).quiet
  | @closes erasure next which ok hphase =>
      exact (goesOn_closeAlerts w _ next _).handles (congrArg Phase.evaluation? hphase)
        (congrArg Phase.isCounted hphase) ((untouched_closeAlerts w _ next _).trans
          (Shared.untouched_erasureAnswer erasure which ok d)).quiet
  | @resumes next hphase =>
      exact (goesOn_resume w next d).handles (congrArg Phase.evaluation? hphase)
        (congrArg Phase.isCounted hphase) (untouched_resume w next d).quiet
  | @starts e hphase =>
      unfold start
      split
      next hstop =>
          exact .quits hstop rfl (congrArg Phase.evaluation? hphase) rfl
            (Shared.Untouched.refl d).quiet
      next =>
          exact .keeps rfl (congrArg Phase.evaluation? hphase).symm
            (congrArg Phase.isCounted hphase).symm (Shared.untouched_log d rfl).quiet
  | cancels hphase _ hstop =>
      exact hquits (Phase.called?_cases (Phase.called?_of_busy hphase)).1 hstop
  | pauses hphase hcalled =>
      rcases hcalled with rfl | rfl
      · exact .keeps rfl (congrArg Phase.evaluation? hphase).symm
          (congrArg Phase.isCounted hphase).symm (Shared.Untouched.refl d).quiet
      · exact .keeps rfl (congrArg Phase.evaluation? hphase).symm
          (congrArg Phase.isCounted hphase).symm (Shared.Untouched.refl d).quiet
  | builds hphase =>
      exact .keeps rfl (congrArg Phase.evaluation? hphase).symm
        (congrArg Phase.isCounted hphase).symm (Shared.Untouched.refl d).quiet
  | @concludes job vs hphase =>
      exact .counts (congrArg Phase.evaluation? hphase) (congrArg Phase.isCounted hphase) vs false
  | @retries _ job error hphase => exact handles_retry (Phase.called?_of_busy hphase) error d
  | withdraws hphase hstop => exact hquits (congrArg Phase.evaluation? hphase) hstop
  | @absorbs job vs hphase =>
      exact handles_absorb (congrArg Phase.evaluation? hphase)
        (congrArg Phase.isCounted hphase) vs d
  | @evicts job processed eviction ok hphase =>
      exact .keeps rfl (congrArg Phase.evaluation? hphase).symm
        (congrArg Phase.isCounted hphase).symm
        (Shared.untouched_evictionAnswer eviction ok d).quiet
  | @notifies job processed eviction ok hphase =>
      exact handles_notify (congrArg Phase.evaluation? hphase) (congrArg Phase.isCounted hphase)
        processed (Shared.untouched_evictionAnswer eviction ok d).quiet
  | completes hphase =>
      exact .completes (congrArg Phase.evaluation? hphase) (congrArg Phase.isCounted hphase)
        (Shared.Untouched.refl d).quiet

end Worker

end Vigil
