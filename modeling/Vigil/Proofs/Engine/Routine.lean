import Vigil.Engine.Routine

/-!
# What a routine does to its handle

Between two looks at its mailboxes a routine changes nothing in its handle but the
busy flag. That flag always tells whether the routine has an evaluation at work
(`Phase.isWorking`), only a stop makes the routine leave (`Phase.isLeaving`), and it
waits for the store only while there are rows to erase. Each function of the
routine keeps this (`Worker.Keeps`), and so does each of its steps
(`Worker.keeps_step`), by the cases of what a step can be (`Worker.advances_step`).
-/

namespace Vigil

/-- Whether an evaluation comes after the erasure. -/
def Resume.isEvaluation : Resume → Bool
  | .evaluate _ => true
  | _ => false

/-- Whether the exit comes after the erasure. -/
def Resume.isExit : Resume → Bool
  | .exit => true
  | _ => false

/-- Whether it is an answer to the asking for an evaluator, or one of the evaluator. -/
def Input.isAnswer : Input → Bool
  | .built _ | .evaluated _ => true
  | _ => false

namespace Phase

/-- Whether there is an evaluation that the routine took and has not finished. A
routine that crashed never finishes it. -/
def isWorking : Phase → Bool
  | .idle | .exited => false
  | .erasing _ next | .closing next => next.isEvaluation
  | _ => true

/-- Whether the routine has left or is about to leave. -/
def isLeaving : Phase → Bool
  | .exited => true
  | .erasing _ next | .closing next => next.isExit
  | _ => false

/-- Whether the phase has an answer of the store to come, if it waits for one. -/
def isAwaiting : Phase → Bool
  | .erasing erasure _ => !erasure.isDone
  | _ => true

end Phase

namespace Worker

/-- A step from `w` to `w'` away from the mailboxes. -/
structure Keeps (root : Option StopReason) (w w' : Worker) : Prop where
  handle : w'.handle = { w.handle with running := w'.phase.isWorking }
  working : w'.phase.isWorking = true → w.handle.running = true
  leaving : w'.phase.isLeaving = true → w.handle.isStopped root = true
  awaiting : w'.phase.isAwaiting = true

variable {root : Option StopReason} {w : Worker} {d : Shared}

/-! ## Functions -/

theorem keeps_release : Keeps root w w.release := ⟨rfl, nofun, nofun, rfl⟩

/-- A function that leaves the handle alone needs the busy flag to fit the new phase. -/
theorem keeps_of_handle_eq {w' : Worker} (hh : w'.handle = w.handle)
    (hr : w.handle.running = w'.phase.isWorking)
    (hl : w'.phase.isLeaving = true → w.handle.isStopped root = true)
    (ha : w'.phase.isAwaiting = true) : Keeps root w w' := by
  refine ⟨?_, fun h => hr.trans h, hl, ha⟩
  rw [hh, ← hr]

theorem keeps_request (hw : w.handle.running = true) (job : Job) :
    Keeps root w (w.request job d).1 :=
  keeps_of_handle_eq rfl hw nofun rfl

theorem keeps_start (hw : w.handle.running = true) (e : Evaluation) :
    Keeps root w (w.start root e d).1 := by
  unfold start
  split
  · exact keeps_release
  · exact keeps_request hw _

theorem keeps_take (hw : w.handle.running = true) (e : Evaluation) : Keeps root w (w.take e) :=
  keeps_of_handle_eq rfl hw nofun rfl

theorem keeps_resume {next : Resume} (hw : w.handle.running = next.isEvaluation)
    (hx : next.isExit = true → w.handle.isStopped root = true) :
    Keeps root w (w.resume next d).1 := by
  cases next with
  | exit => exact keeps_of_handle_eq rfl hw (fun _ => hx rfl) rfl
  | adopt version => exact keeps_of_handle_eq rfl hw nofun rfl
  | evaluate e => exact keeps_take hw e

theorem keeps_closeAlerts {removed : List Instance} {next : Resume}
    (hw : w.handle.running = next.isEvaluation)
    (hx : next.isExit = true → w.handle.isStopped root = true) :
    Keeps root w (w.closeAlerts removed next d).1 := by
  unfold closeAlerts
  dsimp only
  split
  · exact keeps_resume hw hx
  · exact keeps_of_handle_eq rfl hw hx rfl

theorem keeps_clear {next : Resume} (hw : w.handle.running = next.isEvaluation)
    (hx : next.isExit = true → w.handle.isStopped root = true) :
    Keeps root w (w.clear next d).1 := by
  unfold clear
  dsimp only
  split
  · exact keeps_closeAlerts hw hx
  · rename_i hdone
    rw [Bool.not_eq_true] at hdone
    refine keeps_of_handle_eq rfl hw hx ?_
    show (!Erasure.isDone _) = true
    rw [hdone]
    rfl

theorem keeps_onStop (hw : w.handle.running = false) (hs : w.handle.isStopped root = true)
    (r : StopReason) : Keeps root w (w.onStop r d).1 := by
  cases r with
  | ruleDeleted => exact keeps_clear hw fun _ => hs
  | shutdown => exact keeps_resume hw fun _ => hs

theorem keeps_onUpdate (hw : w.handle.running = false) (hp : w.phase = .idle) (version : Int) :
    Keeps root w (w.onUpdate version d).1 := by
  have hstay : ∀ v, Keeps root w { w with version := v } := fun v => by
    refine keeps_of_handle_eq rfl ?_ ?_ ?_
    · rw [hw, hp]
      rfl
    · rw [hp]
      exact nofun
    · rw [hp]
      rfl
  unfold onUpdate
  split
  · exact hstay w.version
  -- the first version that a routine hears of has no instances to erase
  · split
    · exact keeps_clear hw nofun
    · exact hstay version

theorem keeps_onEvaluation (hw : w.handle.running = true) (e : Evaluation) :
    Keeps root w (w.onEvaluation e d).1 := by
  unfold onEvaluation
  split
  · exact keeps_clear hw nofun
  · exact keeps_take hw e

theorem keeps_conclude (hw : w.handle.running = true) (job : Job) (vs : List Verdict)
    (failed : Bool) : Keeps root w (w.conclude job vs failed d).1 :=
  keeps_of_handle_eq rfl hw nofun rfl

theorem keeps_retry (hw : w.handle.running = true) (job : Job) (error : EngineError) :
    Keeps root w (w.retry job error d).1 := by
  unfold retry
  dsimp only
  split
  · exact keeps_request hw _
  · exact keeps_conclude hw ..

theorem keeps_notify (hw : w.handle.running = true) (job : Job) (processed : List Instance) :
    Keeps root w (w.notify job processed d).1 := by
  unfold notify
  split
  · exact keeps_of_handle_eq rfl hw nofun rfl
  · exact keeps_release
  · exact keeps_of_handle_eq rfl hw nofun rfl

theorem keeps_absorb (hw : w.handle.running = true) (job : Job) (vs : List Verdict) :
    Keeps root w (w.absorb job vs d).1 := by
  unfold absorb
  dsimp only
  split
  · exact keeps_of_handle_eq rfl hw nofun rfl
  · split
    · exact keeps_notify hw ..
    · exact keeps_of_handle_eq rfl hw nofun rfl

/-! ## Steps -/

/-- What comes of an input that a routine away from its mailboxes waits for. -/
inductive Advances (root : Option StopReason) (w : Worker) (d : Shared) :
    Input → Worker × Shared → Prop where
  | erases {erasure : Erasure} {next : Resume} {which : Nat} {ok : Bool}
      (hphase : w.phase = .erasing erasure next) (hwhich : which < erasure.waiting.length)
      (hrest : (erasure.answer which ok d).1.isDone = false) :
      Advances root w d (.stored which ok)
        ({ w with phase := .erasing (erasure.answer which ok d).1 next },
          (erasure.answer which ok d).2)
  /-- The last row of the rule is gone. -/
  | closes {erasure : Erasure} {next : Resume} {which : Nat} {ok : Bool}
      (hphase : w.phase = .erasing erasure next) (hwhich : which < erasure.waiting.length)
      (hdone : (erasure.answer which ok d).1.isDone = true) :
      Advances root w d (.stored which ok)
        (w.closeAlerts (erasure.answer which ok d).1.removed next
          (erasure.answer which ok d).2)
  | resumes {next : Resume} (hphase : w.phase = .closing next) :
      Advances root w d .delivered (w.resume next d)
  | starts {e : Evaluation} (hphase : w.phase = .taken e) :
      Advances root w d .look (w.start root e d)
  | cancels {job : Job} (hphase : w.phase = .building job ∨ w.phase = .evaluating job)
      (hsuspended : job.suspended = true) (hstop : w.handle.isStopped root = true) :
      Advances root w d .look (w.release, d)
  /-- The evaluator comes to wait, or goes on as no stop is read. -/
  | pauses {input : Input} {phase : Job → Phase} {job : Job}
      (hphase : w.phase = phase job) (hcalled : phase = .building ∨ phase = .evaluating)
      (hgoes : job.suspended = false ∨ w.handle.isStopped root = false) :
      Advances root w d input
        ({ w with phase := phase { job with suspended := !job.suspended } }, d)
  | builds {job : Job} (hphase : w.phase = .building job) (hworks : job.suspended = false) :
      Advances root w d (.built (.ok ())) ({ w with phase := .evaluating job }, d)
  | concludes {job : Job} {vs : List Verdict} (hphase : w.phase = .evaluating job)
      (hworks : job.suspended = false) :
      Advances root w d (.evaluated (.ok vs)) (w.conclude job vs false d)
  | retries {input : Input} {job : Job} {error : EngineError}
      (hphase : w.phase = .building job ∨ w.phase = .evaluating job)
      (hworks : job.suspended = false) (hanswer : input.isAnswer = true) :
      Advances root w d input (w.retry job error d)
  | withdraws {job : Job} {vs : List Verdict} (hphase : w.phase = .concluded job vs)
      (hstop : w.handle.isStopped root = true) : Advances root w d .proceed (w.release, d)
  | absorbs {job : Job} {vs : List Verdict} (hphase : w.phase = .concluded job vs)
      (hgoes : w.handle.isStopped root = false) :
      Advances root w d .proceed (w.absorb job vs d)
  | evicts {job : Job} {processed : List Instance} {eviction : Eviction} {ok : Bool}
      (hphase : w.phase = .evicting job processed eviction) :
      Advances root w d (.stored 0 ok)
        ({ w with phase := .evicting job processed (eviction.answer ok d).1 },
          (eviction.answer ok d).2)
  | notifies {job : Job} {processed : List Instance} {eviction : Eviction} {ok : Bool}
      (hphase : w.phase = .evicting job processed eviction) :
      Advances root w d (.stored 0 ok) (w.notify job processed (eviction.answer ok d).2)
  | completes {job : Job} (hphase : w.phase = .sending job) :
      Advances root w d .delivered (w.complete job d)

/-- A look before an evaluator goes on gives the evaluation up, or finds no stop. -/
theorem look_cases {phase : Job → Phase} {job : Job} {r : Worker × Shared}
    (h : w.look? root phase job d = some r) :
    job.suspended = true ∧ (w.handle.isStopped root = true ∧ r = (w.release, d) ∨
      w.handle.isStopped root = false ∧
        r = ({ w with phase := phase { job with suspended := false } }, d)) := by
  unfold look? at h
  split at h
  next => cases h
  next hsuspended =>
      refine ⟨by simpa using hsuspended, ?_⟩
      split at h
      next hstop => exact Or.inl ⟨hstop, (Option.some.inj h).symm⟩
      next hgoes => exact Or.inr ⟨Bool.eq_false_iff.2 hgoes, (Option.some.inj h).symm⟩

theorem suspend_cases {phase : Job → Phase} {job : Job} {r : Worker × Shared}
    (h : w.suspend? phase job d = some r) :
    job.suspended = false ∧ r = ({ w with phase := phase { job with suspended := true } }, d) := by
  unfold suspend? at h
  split at h
  next => cases h
  next hworks => exact ⟨Bool.eq_false_iff.2 hworks, (Option.some.inj h).symm⟩

theorem advances_look {phase : Job → Phase} {job : Job} {r : Worker × Shared}
    (hphase : w.phase = phase job) (hcalled : phase = .building ∨ phase = .evaluating)
    (h : w.look? root phase job d = some r) : Advances root w d .look r := by
  obtain ⟨hsuspended, ⟨hstop, rfl⟩ | ⟨hgoes, rfl⟩⟩ := look_cases h
  · refine .cancels ?_ hsuspended hstop
    rcases hcalled with rfl | rfl
    · exact Or.inl hphase
    · exact Or.inr hphase
  · have hpause : Advances root w d .look
        ({ w with phase := phase { job with suspended := !job.suspended } }, d) :=
      .pauses hphase hcalled (Or.inr hgoes)
    rwa [hsuspended] at hpause

theorem advances_suspend {phase : Job → Phase} {job : Job} {r : Worker × Shared}
    (hphase : w.phase = phase job) (hcalled : phase = .building ∨ phase = .evaluating)
    (h : w.suspend? phase job d = some r) : Advances root w d .suspend r := by
  obtain ⟨hworks, rfl⟩ := suspend_cases h
  have hpause : Advances root w d .suspend
      ({ w with phase := phase { job with suspended := !job.suspended } }, d) :=
    .pauses hphase hcalled (Or.inl hworks)
  rwa [hworks] at hpause

/-- **What a step away from the mailboxes can be.** -/
theorem advances_step {input : Input} {r : Worker × Shared} (hidle : w.phase ≠ .idle)
    (h : w.step? root input d = some r) : Advances root w d input r := by
  unfold step? at h
  -- one case for each phase and what it waits for, in the order of the step
  split at h
  next hphase => exact absurd hphase hidle
  next erasure next which ok hphase =>
      split at h
      · rename_i hwhich
        dsimp only at h
        split at h
        · rename_i hdone
          exact Option.some.inj h ▸ .closes hphase hwhich hdone
        · rename_i hrest
          exact Option.some.inj h ▸ .erases hphase hwhich (Bool.eq_false_iff.2 hrest)
      · cases h
  next next hphase => exact Option.some.inj h ▸ .resumes hphase
  next e hphase => exact Option.some.inj h ▸ .starts hphase
  next job hphase => exact advances_look hphase (Or.inl rfl) h
  next job hphase => exact advances_look hphase (Or.inr rfl) h
  next job hphase => exact advances_suspend hphase (Or.inl rfl) h
  next job hphase => exact advances_suspend hphase (Or.inr rfl) h
  next job outcome hphase =>
      split at h
      · cases h
      · rename_i hworks
        cases outcome with
        | ok _ => exact Option.some.inj h ▸ .builds hphase (Bool.eq_false_iff.2 hworks)
        | error error =>
            exact Option.some.inj h ▸ .retries (Or.inl hphase) (Bool.eq_false_iff.2 hworks) rfl
  next job outcome hphase =>
      split at h
      · cases h
      · rename_i hworks
        cases outcome with
        | ok vs => exact Option.some.inj h ▸ .concludes hphase (Bool.eq_false_iff.2 hworks)
        | error error =>
            exact Option.some.inj h ▸ .retries (Or.inr hphase) (Bool.eq_false_iff.2 hworks) rfl
  next job vs hphase =>
      split at h
      · rename_i hstop
        exact Option.some.inj h ▸ .withdraws hphase hstop
      · rename_i hgoes
        exact Option.some.inj h ▸ .absorbs hphase (Bool.eq_false_iff.2 hgoes)
  next job processed eviction ok hphase =>
      dsimp only at h
      split at h
      · exact Option.some.inj h ▸ .notifies hphase
      · exact Option.some.inj h ▸ .evicts hphase
  next job hphase => exact Option.some.inj h ▸ .completes hphase
  next => cases h

theorem exists_advance {w' : Worker} {d' : Shared} {input : Input} (hidle : w.phase ≠ .idle)
    (h : w.step? root input d = some (w', d')) :
    ∃ r, r.1 = w' ∧ r.2 = d' ∧ Advances root w d input r :=
  ⟨_, rfl, rfl, advances_step hidle h⟩

/-- **A routine away from its mailboxes.** A step between two looks changes nothing in
the handle but the busy flag. -/
theorem keeps_step {w' : Worker} {d' : Shared} {input : Input} (hidle : w.phase ≠ .idle)
    (hw : w.handle.running = w.phase.isWorking)
    (hl : w.phase.isLeaving = true → w.handle.isStopped root = true)
    (h : w.step? root input d = some (w', d')) : Keeps root w w' := by
  obtain ⟨r, rfl, rfl, hadvances⟩ := exists_advance hidle h
  cases hadvances with
  | erases hphase _ hrest =>
      rw [hphase] at hw hl
      refine keeps_of_handle_eq rfl hw hl ?_
      rw [Phase.isAwaiting, hrest]
      rfl
  | closes hphase =>
      rw [hphase] at hw hl
      exact keeps_closeAlerts hw hl
  | resumes hphase =>
      rw [hphase] at hw hl
      exact keeps_resume hw hl
  | starts hphase =>
      rw [hphase] at hw
      exact keeps_start hw _
  | cancels => exact keeps_release
  | pauses hphase hcalled =>
      rw [hphase] at hw
      rcases hcalled with rfl | rfl
      · exact keeps_of_handle_eq rfl hw nofun rfl
      · exact keeps_of_handle_eq rfl hw nofun rfl
  | builds hphase =>
      rw [hphase] at hw
      exact keeps_of_handle_eq rfl hw nofun rfl
  | concludes hphase =>
      rw [hphase] at hw
      exact keeps_conclude hw ..
  | retries hphase =>
      have hworking : w.phase.isWorking = true := by
        rcases hphase with hphase | hphase
        · rw [hphase]
          rfl
        · rw [hphase]
          rfl
      exact keeps_retry (hw.trans hworking) ..
  | withdraws => exact keeps_release
  | absorbs hphase =>
      rw [hphase] at hw
      exact keeps_absorb hw ..
  | evicts hphase =>
      rw [hphase] at hw
      exact keeps_of_handle_eq rfl hw nofun rfl
  | notifies hphase =>
      rw [hphase] at hw
      exact keeps_notify hw ..
  | completes => exact keeps_release

end Worker

end Vigil
