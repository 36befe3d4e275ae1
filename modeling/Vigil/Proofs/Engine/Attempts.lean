import Vigil.Proofs.Engine.Conservation
import Vigil.Proofs.Engine.Turns

/-!
# Attempts at an evaluation

A routine attempts an evaluation until an evaluator answers, but no more often than it may,
and at least once. Each attempt asks for an evaluator, and only one that is there is put to
work. Whatever is answered, and however often an evaluator has to wait, the routine is at one
of these attempts (`Worker.Tries`) or has concluded with what the last one came to
(`Worker.Concludes`), and as long as nobody stops it it takes the next answer
(`Worker.Path.attempts`).
-/

namespace Vigil

/-- What is answered to the attempts: whether there is an evaluator, and what it finds. -/
structure Answers where
  built : Nat → Except EngineError Unit
  found : Nat → Except EngineError (List Verdict)

namespace Answers

variable (a : Answers) {limit j k n : Nat}

/-- What an attempt comes to. Its error is that of asking for an evaluator or else that of the
evaluator. -/
def outcome (k : Nat) : Except EngineError (List Verdict) := do
  a.built k
  a.found k

def Fails (k : Nat) : Prop := ∃ error, a.outcome k = .error error

/-- What a routine hears of an attempt. Only an evaluator that is there is put to work. -/
def inputs (k : Nat) : List Input :=
  .built (a.built k) :: match a.built k with
    | .ok _ => [.evaluated (a.found k)]
    | .error _ => []

/-- What it hears of the first `n` attempts. -/
def script (n : Nat) : List Input := (List.range n).flatMap a.inputs

/-- The last of at most `limit` attempts is the first that does not fail, if there is one. -/
structure IsLast (limit k : Nat) : Prop where
  lt : k < limit
  before : ∀ j < k, a.Fails j
  ends : k + 1 = limit ∨ ¬ a.Fails k

/-- What an evaluation yields whose last attempt is `k`, and whether it failed: the verdicts of
the attempt as they are, or one verdict on the failure. -/
inductive Yields (t : Moment) (k : Nat) : List Verdict → Bool → Prop where
  | success {vs : List Verdict} (h : a.outcome k = .ok vs) : Yields t k vs false
  | failure {error : EngineError} {took : Span} (h : a.outcome k = .error error) :
      Yields t k
        [{ labels := ∅, status := .error, time := t, error := some error.message, took }] true

variable {a}

theorem outcome_of_not_built {error : EngineError} (h : a.built k = .error error) :
    a.outcome k = .error error := by
  unfold outcome
  rw [h]
  rfl

theorem outcome_of_built (h : a.built k = .ok ()) : a.outcome k = a.found k := by
  unfold outcome
  rw [h]
  rfl

/-- Attempts that fail are followed by more, up to the last. -/
theorem exists_isLast (hj : j < limit) (hfails : ∀ i < j, a.Fails i) :
    ∃ k, j ≤ k ∧ a.IsLast limit k := by
  obtain ⟨n, hn⟩ := Nat.exists_eq_add_of_lt hj
  induction n generalizing j with
  | zero => exact ⟨j, Nat.le_refl j, hj, hfails, Or.inl hn.symm⟩
  | succ n ih =>
      by_cases hf : a.Fails j
      · obtain ⟨k, hk, hlast⟩ := ih (by omega) (Nat.forall_lt_succ_right.2 ⟨hfails, hf⟩) (by omega)
        exact ⟨k, Nat.le_of_succ_le hk, hlast⟩
      · exact ⟨j, Nat.le_refl j, hj, hfails, Or.inr hf⟩

theorem IsLast.fails_iff (h : a.IsLast limit k) : a.Fails k ↔ ∀ j < limit, a.Fails j := by
  constructor
  · intro hk
    rcases h.ends with hlimit | hsucceeds
    · rw [← hlimit]
      exact Nat.forall_lt_succ_right.2 ⟨h.before, hk⟩
    · exact absurd hk hsucceeds
  · intro hall
    exact hall k h.lt

/-! ## What a routine hears -/

theorem script_succ (n : Nat) : a.script (n + 1) = a.script n ++ a.inputs n := by
  unfold script
  rw [List.range_succ, List.flatMap_append, List.flatMap_singleton]

theorem script_succ_of_built (h : a.built n = .ok ()) :
    a.script (n + 1) = a.script n ++ [.built (.ok ()), .evaluated (a.found n)] := by
  rw [script_succ, inputs, h]

theorem script_succ_of_not_built {error : EngineError} (h : a.built n = .error error) :
    a.script (n + 1) = a.script n ++ [.built (.error error)] := by
  rw [script_succ, inputs, h]

theorem script_mono (h : j ≤ n) : a.script j <+: a.script n := by
  induction h with
  | refl => exact List.prefix_rfl
  | step _ ih =>
      rw [script_succ]
      exact ih.trans (List.prefix_append _ _)

/-- After the first `j` attempts a routine hears of the next one. -/
theorem next_of_prefix {xs : List Input} (hxs : xs ≠ []) (h : a.script j ++ xs <+: a.script n) :
    ∃ rest, xs <+: a.inputs j ++ rest := by
  have hj : j < n := by
    by_contra hn
    have hshort := (h.trans (script_mono (Nat.not_lt.1 hn))).length_le
    rw [List.length_append] at hshort
    exact hxs (List.eq_nil_of_length_eq_zero (by omega))
  obtain ⟨rest, hrest⟩ := script_mono (a := a) (Nat.succ_le_of_lt hj)
  rw [script_succ, List.append_assoc] at hrest
  rw [← hrest, List.prefix_append_right_inj] at h
  exact ⟨rest, h⟩

theorem input_eq_built {x : Input} (h : a.script j ++ [x] <+: a.script n) :
    x = .built (a.built j) := by
  obtain ⟨rest, hrest⟩ := next_of_prefix (List.cons_ne_nil _ _) h
  exact (List.cons_prefix_cons.1 hrest).1

theorem input_eq_evaluated {x : Input} (hbuilt : a.built j = .ok ())
    (h : a.script j ++ [.built (.ok ()), x] <+: a.script n) : x = .evaluated (a.found j) := by
  obtain ⟨rest, hrest⟩ := next_of_prefix (List.cons_ne_nil _ _) h
  unfold inputs at hrest
  rw [hbuilt] at hrest
  exact (List.cons_prefix_cons.1 (List.cons_prefix_cons.1 hrest).2).1

end Answers

theorem SchedulerMetrics.readFailures_recordEvaluation (m : SchedulerMetrics) (q org : Int)
    (took : Span) (failed : Bool) :
    ((m.recordEvaluation q took failed).readFailures org).1 =
      (m.readFailures org).1 + (failed && q == org).toNat := by
  cases failed with
  | false => rfl
  | true => exact getD_find?_count m.failures q org

/-- Whether an evaluator comes to wait by it, or goes on. -/
def Input.isPause : Input → Bool
  | .look | .suspend => true
  | _ => false

theorem Input.isPause_iff {x : Input} : x.isPause = true ↔ x = .look ∨ x = .suspend := by
  cases x <;> simp [isPause]

namespace Worker

variable {a : Answers} {w v : Worker} {d : Shared} {root : Option StopReason} {job : Job}
  {e : Evaluation} {startedAt allowed j k n : Nat} {ts : List Turn} {t : Turn}
  {error : EngineError} {vs : List Verdict} {failed : Bool}

/-! ## Turns -/

/-- What a routine is answered in its turns, whatever evaluators wait for in between. -/
def heard (ts : List Turn) : List Input := (ts.map Turn.input).filter (!·.isPause)

theorem heard_of_pause (h : t.input.isPause = true) : heard (ts ++ [t]) = heard ts := by
  unfold heard
  rw [List.map_append, List.filter_append, List.map_singleton, List.filter_singleton, h]
  exact List.append_nil _

theorem heard_of_not_pause (h : t.input.isPause = false) :
    heard (ts ++ [t]) = heard ts ++ [t.input] := by
  unfold heard
  rw [List.map_append, List.filter_append, List.map_singleton, List.filter_singleton, h]
  rfl

/-- The calls to the outside that a turn makes. -/
def Turn.calls (t : Turn) : List Event :=
  (t.shared'.journal.drop t.shared.journal.length).map (·.event)

/-- One evaluation of the org is counted in a turn, and its failure if it failed. -/
structure Turn.Counts (t : Turn) (org : Int) (failed : Bool) : Prop where
  evaluations : ∀ o, (t.shared'.metrics.readEvaluations o).1 =
    (t.shared.metrics.readEvaluations o).1 + (org == o).toNat
  failures : ∀ o, (t.shared'.metrics.readFailures o).1 =
    (t.shared.metrics.readFailures o).1 + (failed && org == o).toNat

theorem Turn.calls_eq_nil (h : t.shared'.journal = t.shared.journal) : t.calls = [] := by
  unfold calls
  rw [h, List.drop_length, List.map_nil]

theorem Turn.calls_of_log {event : Event} (h : t.shared' = t.shared.log event) :
    t.calls = [event] := by
  unfold calls
  rw [h]
  show (List.drop _ (t.shared.journal ++ _)).map _ = _
  rw [List.drop_left]
  rfl

theorem step?_built (h : w.phase = .building job) (outcome : Except EngineError Unit) :
    w.step? root (.built outcome) d = if job.suspended then none else
      some (match outcome with
        | .ok () => ({ w with phase := .evaluating job }, d)
        | .error error => w.retry job error d) := by
  unfold step?
  rw [h]
  dsimp only
  cases outcome with
  | ok _ => rfl
  | error _ => rfl

theorem step?_evaluated (h : w.phase = .evaluating job)
    (outcome : Except EngineError (List Verdict)) :
    w.step? root (.evaluated outcome) d = if job.suspended then none else
      some (match outcome with
        | .ok vs => w.conclude job vs false d
        | .error error => w.retry job error d) := by
  unfold step?
  rw [h]
  dsimp only
  cases outcome with
  | ok _ => rfl
  | error _ => rfl

theorem step?_look {phase : Job → Phase} (h : w.phase = phase job)
    (hcalled : phase = .building ∨ phase = .evaluating) :
    w.step? root .look d = w.look? root phase job d := by
  unfold step?
  rw [h]
  rcases hcalled with rfl | rfl
  · rfl
  · rfl

theorem step?_suspend {phase : Job → Phase} (h : w.phase = phase job)
    (hcalled : phase = .building ∨ phase = .evaluating) :
    w.step? root .suspend d = w.suspend? phase job d := by
  unfold step?
  rw [h]
  rcases hcalled with rfl | rfl
  · rfl
  · rfl

/-! ## Attempts -/

/-- A routine is at attempt `j`. It has heard of the earlier ones, has asked for another
evaluator after each, and nothing is counted yet. -/
structure Tries (a : Answers) (e : Evaluation) (startedAt j : Nat) (ts : List Turn)
    (v : Worker) : Prop where
  stage : ∃ suspended,
    v.phase = .building ⟨e, startedAt, j, suspended⟩ ∧ heard ts = a.script j ∨
    v.phase = .evaluating ⟨e, startedAt, j, suspended⟩ ∧ a.built j = .ok () ∧
      heard ts = a.script j ++ [.built (.ok ())]
  calls : ts.flatMap Turn.calls =
    List.replicate j (.evaluatorRequested e.rule.org e.rule.toCondition)
  uncounted : ∀ t ∈ ts, t.shared'.metrics = t.shared.metrics

/-- A routine has concluded after attempt `k` and has counted the evaluation, once. -/
structure Concludes (a : Answers) (e : Evaluation) (startedAt k : Nat) (ts : List Turn)
    (v : Worker) : Prop where
  inputs : heard ts = a.script (k + 1)
  calls : ts.flatMap Turn.calls =
    List.replicate k (.evaluatorRequested e.rule.org e.rule.toCondition)
  verdicts : ∃ before last failures vs failed, ts = before ++ [last] ∧
    (∀ t ∈ before, t.shared'.metrics = t.shared.metrics) ∧
    v.phase = .concluded ⟨e, startedAt, failures, false⟩ vs ∧ a.Yields e.scheduledAt k vs failed ∧
    last.Counts e.rule.org (failed || hasErrors vs)

theorem Tries.abides {v' : Worker} (h : Tries a e startedAt j ts v) (hv : v.Abides v') :
    Tries a e startedAt j ts v' := by
  refine ⟨?_, h.calls, h.uncounted⟩
  rw [hv.phase]
  exact h.stage

theorem Concludes.abides {v' : Worker} (h : Concludes a e startedAt k ts v) (hv : v.Abides v') :
    Concludes a e startedAt k ts v' := by
  refine ⟨h.inputs, h.calls, ?_⟩
  rw [hv.phase]
  exact h.verdicts

/-- While an evaluator comes to wait or goes on nothing else changes. -/
theorem pause_of_step {phase : Job → Phase} (hphase : t.worker.phase = phase job)
    (hcalled : phase = .building ∨ phase = .evaluating) (ht : t.IsStep)
    (hpause : t.input.isPause = true)
    (hgoes : t.input = .look → t.worker.handle.isStopped t.root = false) :
    t.worker'.phase = phase { job with suspended := !job.suspended } ∧ t.shared' = t.shared := by
  unfold Turn.IsStep at ht
  rcases Input.isPause_iff.1 hpause with hinput | hinput
  · rw [hinput, step?_look hphase hcalled] at ht
    rcases look_cases ht with ⟨hsuspended, ⟨hstop, -⟩ | ⟨-, hr⟩⟩
    · exact absurd hstop (Bool.eq_false_iff.1 (hgoes hinput))
    · obtain ⟨hworker, hshared⟩ := Prod.mk.inj hr
      rw [hworker, hsuspended]
      exact ⟨rfl, hshared⟩
  · rw [hinput, step?_suspend hphase hcalled] at ht
    obtain ⟨hworks, hr⟩ := suspend_cases ht
    obtain ⟨hworker, hshared⟩ := Prod.mk.inj hr
    rw [hworker, hworks]
    exact ⟨rfl, hshared⟩

/-- A turn that leaves all data alone asks for no evaluator and counts nothing. -/
theorem Tries.untouched (h : Tries a e startedAt j ts v) (hshared : t.shared' = t.shared) :
    (ts ++ [t]).flatMap Turn.calls =
        List.replicate j (.evaluatorRequested e.rule.org e.rule.toCondition) ∧
      ∀ x ∈ ts ++ [t], x.shared'.metrics = x.shared.metrics := by
  constructor
  · rw [List.flatMap_append, List.flatMap_singleton, Turn.calls_eq_nil (congrArg _ hshared),
      List.append_nil, h.calls]
  · rw [List.forall_mem_append, List.forall_mem_singleton]
    exact ⟨h.uncounted, congrArg _ hshared⟩

/-- An evaluator that waits does not end the attempt. -/
theorem Tries.pause (h : Tries a e startedAt j ts t.worker) (ht : t.IsStep)
    (hpause : t.input.isPause = true)
    (hgoes : t.input = .look → t.worker.handle.isStopped t.root = false) :
    Tries a e startedAt j (ts ++ [t]) t.worker' := by
  obtain ⟨suspended, ⟨hphase, hheard⟩ | ⟨hphase, hbuilt, hheard⟩⟩ := h.stage
  · obtain ⟨hphase', hshared⟩ := pause_of_step hphase (Or.inl rfl) ht hpause hgoes
    obtain ⟨hcalls, huncounted⟩ := h.untouched hshared
    exact ⟨⟨_, Or.inl ⟨hphase', (heard_of_pause hpause).trans hheard⟩⟩, hcalls, huncounted⟩
  · obtain ⟨hphase', hshared⟩ := pause_of_step hphase (Or.inr rfl) ht hpause hgoes
    obtain ⟨hcalls, huncounted⟩ := h.untouched hshared
    exact ⟨⟨_, Or.inr ⟨hphase', hbuilt, (heard_of_pause hpause).trans hheard⟩⟩, hcalls, huncounted⟩

/-- An attempt that is the last is counted. -/
theorem Tries.conclude {failures : Nat} (h : Tries a e startedAt j ts t.worker)
    (hturn : (t.worker', t.shared') =
      t.worker.conclude ⟨e, startedAt, failures, false⟩ vs failed t.shared)
    (hinputs : heard (ts ++ [t]) = a.script (j + 1))
    (hyields : a.Yields e.scheduledAt j vs failed) :
    Concludes a e startedAt j (ts ++ [t]) t.worker' := by
  obtain ⟨hworker, hshared⟩ := Prod.mk.inj hturn
  have hcalls : t.calls = [] := Turn.calls_eq_nil (by rw [hshared])
  refine ⟨hinputs, ?_, ts, t, failures, vs, failed, rfl, h.uncounted, ?_, hyields, ?_⟩
  · rw [List.flatMap_append, List.flatMap_singleton, hcalls, List.append_nil, h.calls]
  · rw [hworker]
  · constructor
    · intro o
      rw [hshared]
      exact SchedulerMetrics.readEvaluations_recordEvaluation ..
    · intro o
      rw [hshared]
      exact SchedulerMetrics.readFailures_recordEvaluation ..

/-- Where a routine is that may make `limit` attempts: at one of them, with all earlier ones
failed, or after the last. -/
inductive Attempts (a : Answers) (e : Evaluation) (startedAt limit : Nat) (ts : List Turn)
    (v : Worker) : Prop where
  | tries {j : Nat} (hj : j < limit) (hfails : ∀ i < j, a.Fails i)
      (h : Tries a e startedAt j ts v)
  | concludes {k : Nat} (hlast : a.IsLast limit k) (h : Concludes a e startedAt k ts v)

/-- After an attempt that fails comes another one, unless it was the last. -/
theorem Tries.retry (h : Tries a e startedAt j ts t.worker)
    (hturn : (t.worker', t.shared') = t.worker.retry ⟨e, startedAt, j, false⟩ error t.shared)
    (hinputs : heard (ts ++ [t]) = a.script (j + 1))
    (herror : a.outcome j = .error error) (hj : j < max allowed 1)
    (hfails : ∀ i < j, a.Fails i) (hallowed : t.shared.scheduler.maxAttempts = allowed) :
    Attempts a e startedAt (max allowed 1) (ts ++ [t]) t.worker' := by
  unfold Worker.retry at hturn
  dsimp only at hturn
  rw [hallowed] at hturn
  by_cases hmore : j + 1 < max allowed 1
  · rw [if_pos hmore] at hturn
    obtain ⟨hworker, hshared⟩ := Prod.mk.inj hturn
    have hfails' := Nat.forall_lt_succ_right.2 ⟨hfails, error, herror⟩
    refine .tries hmore hfails' ⟨⟨false, Or.inl ⟨?_, hinputs⟩⟩, ?_, ?_⟩
    · rw [hworker]
    · rw [List.flatMap_append, List.flatMap_singleton, Turn.calls_of_log hshared, h.calls,
        List.replicate_succ']
    · rw [List.forall_mem_append, List.forall_mem_singleton]
      refine ⟨h.uncounted, ?_⟩
      rw [hshared]
      rfl
  · rw [if_neg hmore] at hturn
    exact .concludes ⟨hj, hfails, Or.inl (by omega)⟩
      (h.conclude hturn hinputs (.failure herror))

/-- A routine that waits for an evaluator takes one answer. -/
theorem Tries.turn_of_building {suspended : Bool} (h : Tries a e startedAt j ts t.worker)
    (ht : t.IsStep) (hj : j < max allowed 1) (hfails : ∀ i < j, a.Fails i)
    (hallowed : t.shared.scheduler.maxAttempts = allowed) (hpause : t.input.isPause = false)
    (hanswers : heard (ts ++ [t]) <+: a.script n)
    (hphase : t.worker.phase = .building ⟨e, startedAt, j, suspended⟩)
    (hheard : heard ts = a.script j) :
    Attempts a e startedAt (max allowed 1) (ts ++ [t]) t.worker' := by
  rw [heard_of_not_pause hpause, hheard] at hanswers
  have hinput : t.input = .built (a.built j) := Answers.input_eq_built hanswers
  have hinputs : heard (ts ++ [t]) = a.script j ++ [.built (a.built j)] := by
    rw [heard_of_not_pause hpause, hheard, hinput]
  unfold Turn.IsStep at ht
  rw [hinput, step?_built hphase] at ht
  split at ht
  · cases ht
  rename_i hworks
  obtain rfl := Bool.eq_false_iff.2 hworks
  have hturn := (Option.some.inj ht).symm
  cases hbuilt : a.built j with
  | ok _ =>
      rw [hbuilt] at hturn hinputs
      obtain ⟨hworker, hshared⟩ := Prod.mk.inj hturn
      obtain ⟨hcalls, huncounted⟩ := h.untouched hshared
      refine .tries hj hfails ⟨⟨false, Or.inr ⟨?_, hbuilt, hinputs⟩⟩, hcalls, huncounted⟩
      rw [hworker]
  | error error =>
      rw [hbuilt] at hturn hinputs
      rw [← Answers.script_succ_of_not_built hbuilt] at hinputs
      exact h.retry hturn hinputs (Answers.outcome_of_not_built hbuilt) hj hfails hallowed

/-- A routine that waits for verdicts takes one answer. -/
theorem Tries.turn_of_evaluating {suspended : Bool} (h : Tries a e startedAt j ts t.worker)
    (ht : t.IsStep) (hj : j < max allowed 1) (hfails : ∀ i < j, a.Fails i)
    (hallowed : t.shared.scheduler.maxAttempts = allowed) (hpause : t.input.isPause = false)
    (hanswers : heard (ts ++ [t]) <+: a.script n)
    (hphase : t.worker.phase = .evaluating ⟨e, startedAt, j, suspended⟩)
    (hbuilt : a.built j = .ok ()) (hheard : heard ts = a.script j ++ [.built (.ok ())]) :
    Attempts a e startedAt (max allowed 1) (ts ++ [t]) t.worker' := by
  rw [heard_of_not_pause hpause, hheard, List.append_assoc] at hanswers
  have hinput : t.input = .evaluated (a.found j) := Answers.input_eq_evaluated hbuilt hanswers
  have hinputs : heard (ts ++ [t]) = a.script (j + 1) := by
    rw [heard_of_not_pause hpause, hheard, hinput, List.append_assoc,
      Answers.script_succ_of_built hbuilt]
    rfl
  unfold Turn.IsStep at ht
  rw [hinput, step?_evaluated hphase] at ht
  split at ht
  · cases ht
  rename_i hworks
  obtain rfl := Bool.eq_false_iff.2 hworks
  have hturn := (Option.some.inj ht).symm
  have houtcome := Answers.outcome_of_built hbuilt
  cases hfound : a.found j with
  | ok vs =>
      rw [hfound] at hturn houtcome
      have hsucceeds : ¬ a.Fails j := fun ⟨error, herror⟩ => nomatch houtcome.symm.trans herror
      exact .concludes ⟨hj, hfails, Or.inr hsucceeds⟩
        (h.conclude hturn hinputs (.success houtcome))
  | error error =>
      rw [hfound] at hturn houtcome
      exact h.retry hturn hinputs houtcome hj hfails hallowed

/-- A routine that has concluded hears of no further attempt. -/
theorem Concludes.not_step (h : Concludes a e startedAt k ts t.worker)
    (hanswers : heard (ts ++ [t]) <+: a.script n) : ¬ t.IsStep := by
  intro ht
  obtain ⟨-, -, failures, vs, -, -, -, hphase, -⟩ := h.verdicts
  unfold Turn.IsStep step? at ht
  rw [hphase] at ht
  cases hpause : t.input.isPause with
  | true =>
      rcases Input.isPause_iff.1 hpause with hinput | hinput
      · rw [hinput] at ht
        cases ht
      · rw [hinput] at ht
        cases ht
  | false =>
      rw [heard_of_not_pause hpause, h.inputs] at hanswers
      rw [Answers.input_eq_built hanswers] at ht
      cases ht

/-- **A run of answers.** The routine is at an attempt or has concluded after the last. -/
theorem Path.attempts_of_building (hpath : w.Path ts v)
    (hw : w.phase = .building ⟨e, startedAt, 0, false⟩)
    (hallowed : ∀ t ∈ ts, t.shared.scheduler.maxAttempts = allowed)
    (hgoes : ∀ t ∈ ts, t.input = .look → t.worker.handle.isStopped t.root = false)
    (hanswers : heard ts <+: a.script n) :
    Attempts a e startedAt (max allowed 1) ts v := by
  induction hpath with
  | refl =>
      have hlimit : 0 < max allowed 1 := Nat.lt_of_lt_of_le Nat.zero_lt_one (Nat.le_max_right ..)
      exact .tries hlimit (fun i hi => absurd hi (Nat.not_lt_zero i))
        ⟨⟨false, Or.inl ⟨hw, rfl⟩⟩, rfl, List.forall_mem_nil _⟩
  | wait _ hv ih =>
      cases ih hallowed hgoes hanswers with
      | tries hj hfails h => exact .tries hj hfails (h.abides hv)
      | concludes hlast h => exact .concludes hlast (h.abides hv)
  | @turn ts t _ ht ih =>
      rw [List.forall_mem_append, List.forall_mem_singleton] at hallowed hgoes
      have hearlier : heard ts <+: a.script n := by
        refine List.IsPrefix.trans ?_ hanswers
        unfold heard
        rw [List.map_append, List.filter_append]
        exact List.prefix_append _ _
      cases ih hallowed.1 hgoes.1 hearlier with
      | concludes _ h => exact absurd ht (h.not_step hanswers)
      | tries hj hfails h =>
          cases hpause : t.input.isPause with
          | true => exact .tries hj hfails (h.pause ht hpause hgoes.2)
          | false =>
              obtain ⟨suspended, ⟨hphase, hheard⟩ | ⟨hphase, hbuilt, hheard⟩⟩ := h.stage
              · exact h.turn_of_building ht hj hfails hallowed.2 hpause hanswers hphase hheard
              · exact h.turn_of_evaluating ht hj hfails hallowed.2 hpause hanswers hphase hbuilt
                  hheard

/-- An evaluator that waits goes on after a look, if nobody stops it. -/
theorem exists_works {phase : Job → Phase} (hphase : v.phase = phase job)
    (hcalled : phase = .building ∨ phase = .evaluating) (hgoes : v.handle.isStopped root = false)
    (d : Shared) :
    ∃ u : Worker, (u = v ∨ v.step? root .look d = some (u, d)) ∧
      u.phase = phase { job with suspended := false } := by
  cases hsuspended : job.suspended with
  | false => exact ⟨v, Or.inl rfl, by rw [hphase, ← hsuspended]⟩
  | true =>
      refine ⟨{ v with phase := phase { job with suspended := false } }, Or.inr ?_, rfl⟩
      rw [step?_look hphase hcalled, look?, hsuspended, hgoes]
      rfl

/-- At an attempt there is an answer to come, and a routine that nobody stops takes it, after
a look if the evaluator had to wait. -/
theorem Tries.exists_next (h : Tries a e startedAt j ts v) (hjk : j ≤ k) :
    ∃ input rest, a.script (k + 1) = heard ts ++ input :: rest ∧
      ∀ root d, v.handle.isStopped root = false →
        ∃ u : Worker, (u = v ∨ v.step? root .look d = some (u, d)) ∧
          (u.step? root input d).isSome = true := by
  obtain ⟨later, hlater⟩ := Answers.script_mono (a := a) (Nat.succ_le_succ hjk)
  obtain ⟨suspended, ⟨hphase, hheard⟩ | ⟨hphase, hbuilt, hheard⟩⟩ := h.stage
  · refine ⟨.built (a.built j), (a.inputs j).tail ++ later, ?_, fun root d hgoes => ?_⟩
    · rw [← hlater, hheard, Answers.script_succ, List.append_assoc]
      rfl
    · obtain ⟨u, hu, hworks⟩ := exists_works hphase (Or.inl rfl) hgoes d
      refine ⟨u, hu, ?_⟩
      rw [step?_built hworks]
      rfl
  · refine ⟨.evaluated (a.found j), later, ?_, fun root d hgoes => ?_⟩
    · rw [← hlater, hheard, Answers.script_succ_of_built hbuilt, List.append_assoc,
        List.append_assoc]
      rfl
    · obtain ⟨u, hu, hworks⟩ := exists_works hphase (Or.inr rfl) hgoes d
      refine ⟨u, hu, ?_⟩
      rw [step?_evaluated hworks]
      rfl

/-- **Attempts at an evaluation.** There is a last attempt: the first that succeeds or else the
last one allowed. Unless the routine has concluded after it, it is at this attempt or an
earlier one, and if nobody stops it it takes the next answer, after a look if the evaluator had
to wait. -/
theorem Path.attempts (hpath : w.Path ts v) (hw : w.phase = .building ⟨e, startedAt, 0, false⟩)
    (hallowed : ∀ t ∈ ts, t.shared.scheduler.maxAttempts = allowed)
    (hgoes : ∀ t ∈ ts, t.input = .look → t.worker.handle.isStopped t.root = false)
    (hanswers : heard ts <+: a.script n) :
    ∃ k, a.IsLast (max allowed 1) k ∧ (a.Fails k ↔ ∀ j < max allowed 1, a.Fails j) ∧
      (Concludes a e startedAt k ts v ∨
        (∃ j ≤ k, Tries a e startedAt j ts v) ∧
          ∃ input rest, a.script (k + 1) = heard ts ++ input :: rest ∧
            ∀ root d, v.handle.isStopped root = false →
              ∃ u : Worker, (u = v ∨ v.step? root .look d = some (u, d)) ∧
                (u.step? root input d).isSome = true) := by
  cases hpath.attempts_of_building hw hallowed hgoes hanswers with
  | tries hj hfails h =>
      obtain ⟨k, hjk, hlast⟩ := Answers.exists_isLast hj hfails
      exact ⟨k, hlast, hlast.fails_iff, Or.inr ⟨⟨_, hjk, h⟩, h.exists_next hjk⟩⟩
  | concludes hlast h => exact ⟨_, hlast, hlast.fails_iff, Or.inl h⟩

/-- What a routine goes through by these inputs if nobody else does anything. -/
def alone (w : Worker) (d : Shared) : List Input → List Turn
  | [] => []
  | input :: inputs =>
    match w.step? none input d with
    | some (w', d') => ⟨none, input, w, d, w', d'⟩ :: w'.alone d' inputs
    | none => []

theorem path_alone (w : Worker) (d : Shared) (inputs : List Input) :
    ∃ v, w.Path (w.alone d inputs) v := by
  induction inputs generalizing w d with
  | nil => exact ⟨w, .refl⟩
  | cons input inputs ih =>
      unfold alone
      split
      · rename_i w' d' hstep
        obtain ⟨v, hv⟩ := ih w' d'
        exact ⟨v, (Path.turn .refl (t := ⟨none, input, w, d, w', d'⟩) hstep).trans hv⟩
      · exact ⟨w, .refl⟩

/-- An evaluation that is due, of a rule that has no data. -/
def dueEvaluation : Evaluation := ⟨.epoch, { uid := "r" }, ""⟩

/-- A routine that has asked for its first evaluator. -/
def asking : Worker :=
  { handle := { key := ⟨1, "r"⟩ }, phase := .building ⟨dueEvaluation, 0, 0, false⟩ }

/-- No evaluator is there at first. The second attempt fails in the evaluator, and the third
finds an error. -/
def lateEvaluator : Answers where
  built k := if k = 0 then .error (.evaluatorBuild "no source") else .ok ()
  found k :=
    if k = 1 then .error (.evaluation "timeout")
    else .ok [{ labels := ∅, status := .error, time := .epoch }]

/-- The answers of three attempts. The evaluator of the second one has to wait. -/
def lateInputs : List Input :=
  lateEvaluator.inputs 0 ++
    [.built (.ok ()), .suspend, .look, .evaluated (lateEvaluator.found 1)] ++
      lateEvaluator.inputs 2

/-- The attempt that counts is the third, and a verdict that tells of an error counts as a
failure. -/
theorem attempts_lateEvaluator :
    asking.phase = .building ⟨dueEvaluation, 0, 0, false⟩ ∧
      (∀ t ∈ asking.alone { clock := .epoch } lateInputs, t.shared.scheduler.maxAttempts = 3) ∧
      (∀ t ∈ asking.alone { clock := .epoch } lateInputs, t.input = .look →
        t.worker.handle.isStopped t.root = false) ∧
      heard (asking.alone { clock := .epoch } lateInputs) <+: lateEvaluator.script 3 ∧
      lateEvaluator.IsLast 3 2 ∧
      ∃ v, asking.Path (asking.alone { clock := .epoch } lateInputs) v ∧
        Concludes lateEvaluator dueEvaluation 0 2 (asking.alone { clock := .epoch } lateInputs) v ∧
        ∃ last ∈ asking.alone { clock := .epoch } lateInputs, last.Counts 1 true := by
  have hallowed : ∀ t ∈ asking.alone { clock := .epoch } lateInputs,
      t.shared.scheduler.maxAttempts = 3 := by decide
  have hgoes : ∀ t ∈ asking.alone { clock := .epoch } lateInputs,
      t.worker.handle.isStopped t.root = false := by decide
  have hheard : heard (asking.alone { clock := .epoch } lateInputs) = lateEvaluator.script 3 := rfl
  have hanswers : heard (asking.alone { clock := .epoch } lateInputs) <+: lateEvaluator.script 3 :=
    List.prefix_rfl
  obtain ⟨v, hpath⟩ := path_alone asking { clock := .epoch } lateInputs
  obtain ⟨k, hlast, -, h⟩ :=
    hpath.attempts rfl hallowed (fun t ht _ => hgoes t ht) hanswers
  have hfirst : lateEvaluator.Fails 0 := ⟨.evaluatorBuild "no source", rfl⟩
  have hsecond : lateEvaluator.Fails 1 := ⟨.evaluation "timeout", rfl⟩
  have hthird : ¬ lateEvaluator.Fails 2 := fun ⟨_, h⟩ => nomatch h
  obtain rfl : k = 2 := by
    have hk : k < 3 := hlast.lt
    rcases hlast.ends with hends | hsucceeds
    · have hends : k + 1 = 3 := hends
      omega
    · rcases (by omega : k = 0 ∨ k = 1 ∨ k = 2) with rfl | rfl | rfl
      · exact absurd hfirst hsucceeds
      · exact absurd hsecond hsucceeds
      · rfl
  have hconcludes : Concludes lateEvaluator dueEvaluation 0 2
      (asking.alone { clock := .epoch } lateInputs) v := by
    rcases h with h | ⟨-, input, rest, hrest, -⟩
    · exact h
    -- all answers to the three attempts are in
    · have hlength : (lateEvaluator.script 3).length = _ := congrArg List.length hrest
      rw [hheard, List.length_append, List.length_cons] at hlength
      omega
  refine ⟨rfl, hallowed, fun t ht _ => hgoes t ht, hanswers, hlast, v, hpath, hconcludes, ?_⟩
  obtain ⟨before, last, failures, vs, failed, hts, -, -, hyields, hcounts⟩ := hconcludes.verdicts
  have hfailed : (failed || hasErrors vs) = true := by
    cases hyields with
    | success h =>
        obtain rfl : _ = vs := Except.ok.inj h
        exact hasErrors_iff.2 ⟨_, List.mem_cons_self, rfl⟩
    | failure => rfl
  rw [hfailed] at hcounts
  rw [hts]
  exact ⟨last, List.mem_append_right _ List.mem_cons_self, hcounts⟩

end Worker

end Vigil
