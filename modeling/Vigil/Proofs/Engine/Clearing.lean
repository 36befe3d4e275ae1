import Vigil.Proofs.Engine.Steps
import Vigil.Proofs.Mailbox.Progress
import Vigil.Proofs.Table.Keys

/-!
# What clears the instances of a rule

A cache holds the instances of a rule under their identities (`Cache.ids`). A routine
changes which identities a rule has in two ways only: it applies verdicts to the rule of
its evaluation, and it erases the instances of its own rule on a look at its mailboxes.
Between two looks it does not take up leaving or give it up (`Worker.spares_step`). A
routine that was told of the deletion erases its rule with the next look and leaves
(`Worker.clears_wake`). Each of its steps brings it nearer to its end
(`Worker.nearer_of_step`), and before that there always is one (`Worker.exists_step`).
-/

namespace Vigil

namespace Cache

/-- The identities of the instances of a rule. -/
def ids (c : Cache) (k : RuleKey) : List String := (c.ofRule k).keys

theorem values_eq_nil_iff {c : Cache} {k : RuleKey} :
    (c.ofRule k).values = [] ↔ c.ids k = [] := by
  unfold ids Table.values Table.keys
  rw [List.map_eq_nil_iff, List.map_eq_nil_iff]

theorem ids_setRule_of_ne (c : Cache) {q k : RuleKey} (rs : RuleInstances) (h : k ≠ q) :
    (c.setRule q rs).ids k = c.ids k :=
  congrArg Table.keys (ofRule_setRule_of_ne c rs h)

theorem ids_removeRule (c : Cache) (k : RuleKey) : (c.removeRule k).2.ids k = [] :=
  congrArg Table.keys (ofRule_setRule c k ∅)

theorem ids_eq_of_get? {c c' : Cache} {k : RuleKey}
    (h : ∀ id, (c'.get? k id).isSome = (c.get? k id).isSome) : c'.ids k = c.ids k :=
  Table.keys_eq_of_contains h

/-- To note that instances were sent adds none. -/
theorem ids_markSent (c : Cache) (sent : List Instance) (k : RuleKey) :
    (c.markSent sent).ids k = c.ids k := by
  apply ids_eq_of_get?
  intro id
  rw [get?_markSent, Option.isSome_map]

theorem ids_round_of_ne (c : Cache) (settings : StateSettings) (now : Moment) {r : Rule}
    (vs : List Verdict) (extra : Labels) {k : RuleKey} (h : k ≠ r.key) :
    (c.round settings now r vs extra).2.ids k = c.ids k := by
  unfold round
  split
  · rfl
  · exact ids_setRule_of_ne c _ h

end Cache

/-! ## What is shared -/

namespace Shared

theorem isFrame_cache : IsFrame fun d' d => d'.cache = d.cache :=
  ⟨fun _ => rfl, Eq.trans, fun _ _ => rfl⟩

theorem cache_deleteRow (d : Shared) (i : Instance) (ok : Bool) :
    (d.deleteRow i ok).cache = d.cache := by
  cases ok
  · rfl
  · rfl

theorem cache_evictionAnswer (e : Eviction) (ok : Bool) (d : Shared) :
    (e.answer ok d).2.cache = d.cache := by
  unfold Eviction.answer
  split
  · rfl
  · exact (isFrame_cache.annotateClosing ..).trans (cache_deleteRow ..)

theorem cache_erasureAnswer (e : Erasure) (which : Nat) (ok : Bool) (d : Shared) :
    (e.answer which ok d).2.cache = d.cache := by
  unfold Erasure.answer
  split
  · rfl
  · dsimp only
    split
    · exact (isFrame_cache.close ..).trans (cache_deleteRow ..)
    · exact cache_deleteRow ..

theorem ids_round_of_ne (d : Shared) {r : Rule} (vs : List Verdict) (extra : Labels)
    {k : RuleKey} (h : k ≠ r.key) : (d.round r vs extra).2.cache.ids k = d.cache.ids k := by
  have hids := d.cache.ids_round_of_ne d.state d.clock vs extra h
  unfold round
  split
  · rename_i c hround
    rw [hround] at hids
    exact hids
  · rename_i c hround
    rw [hround] at hids
    have hnotes := isFrame_cache.foldl (f := fun d' x => d'.annotate (Change.note r x))
      (fun _ _ => rfl)
    exact (congrArg (Cache.ids · k) (hnotes _ _)).trans hids

end Shared

/-! ## The routine -/

theorem Handle.reason_of_stop {h : Handle} {r : StopReason} (hstop : h.stop = some r)
    (root : Option StopReason) : h.reason root = some r := by
  rw [reason, hstop]
  rfl

theorem Handle.isStopped_of_stop {h : Handle} {r : StopReason} (hstop : h.stop = some r)
    (root : Option StopReason) : h.isStopped root = true := by
  rw [isStopped, reason_of_stop hstop]
  rfl

namespace Worker

/-- The routine has come to `result`: rule `k` has the instances that it had, and `exits`
says whether the routine leaves. -/
structure Spares (k : RuleKey) (exits : Bool) (d : Shared) (result : Worker × Shared) : Prop where
  ids : result.2.cache.ids k = d.cache.ids k
  leaving : result.1.phase.isLeaving = exits

variable {root : Option StopReason} {w w' : Worker} {d d' d₀ : Shared} {k : RuleKey}
  {exits : Bool} {result : Worker × Shared}

theorem spares_of_cache_eq (hc : result.2.cache = d.cache)
    (hl : result.1.phase.isLeaving = exits) : Spares k exits d result :=
  ⟨congrArg (Cache.ids · k) hc, hl⟩

/-- What has been done to the shared data before comes first. -/
theorem Spares.after (h : Spares k exits d result) (h₀ : d.cache.ids k = d₀.cache.ids k) :
    Spares k exits d₀ result :=
  ⟨h.ids.trans h₀, h.leaving⟩

theorem spares_start (w : Worker) (e : Evaluation) (d : Shared) :
    Spares k false d (w.start root e d) := by
  unfold start
  split
  · exact spares_of_cache_eq rfl rfl
  · exact spares_of_cache_eq rfl rfl

theorem spares_resume (w : Worker) (next : Resume) (d : Shared) :
    Spares k next.isExit d (w.resume next d) := by
  cases next with
  | exit => exact spares_of_cache_eq rfl rfl
  | adopt version => exact spares_of_cache_eq rfl rfl
  | evaluate e => exact spares_of_cache_eq rfl rfl

theorem spares_closeAlerts (w : Worker) (removed : List Instance) (next : Resume) (d : Shared) :
    Spares k next.isExit d (w.closeAlerts removed next d) := by
  unfold closeAlerts
  dsimp only
  split
  · exact spares_resume w next d
  · exact spares_of_cache_eq rfl rfl

/-- Once the rule is out of the cache, the cache stays as it is. -/
theorem spares_clear (w : Worker) (next : Resume) (d : Shared) :
    Spares k next.isExit (d.erase w.key w.lastRule).2 (w.clear next d) := by
  unfold clear
  dsimp only
  split
  · exact spares_closeAlerts w _ next _
  · exact spares_of_cache_eq rfl rfl

theorem spares_clear_of_ne (hk : k ≠ w.key) (next : Resume) :
    Spares k next.isExit d (w.clear next d) :=
  (spares_clear w next d).after (Cache.ids_setRule_of_ne d.cache ∅ hk)

theorem spares_retry (w : Worker) (job : Job) (error : EngineError) (d : Shared) :
    Spares k false d (w.retry job error d) := by
  unfold retry
  dsimp only
  split
  · exact spares_of_cache_eq rfl rfl
  · exact spares_of_cache_eq rfl rfl

theorem spares_notify (w : Worker) (job : Job) (processed : List Instance) (d : Shared) :
    Spares k false d (w.notify job processed d) := by
  unfold notify
  split
  · exact spares_of_cache_eq rfl rfl
  · exact spares_of_cache_eq rfl rfl
  · exact ⟨Cache.ids_markSent d.cache _ k, rfl⟩

theorem spares_absorb (w : Worker) {job : Job} (vs : List Verdict) (d : Shared)
    (hk : k ≠ job.evaluation.rule.key) : Spares k false d (w.absorb job vs d) := by
  unfold absorb
  dsimp only
  have hround := d.ids_round_of_ne vs (job.evaluation.rule.reservedLabels
    (if d.scheduler.disableFolderLabel then none else some job.evaluation.folder)) hk
  split
  · rename_i d₁ h
    rw [h] at hround
    exact ⟨hround, rfl⟩
  · rename_i processed eviction d₁ h
    rw [h] at hround
    split
    · exact (spares_notify w job processed d₁).after hround
    · exact ⟨hround, rfl⟩

/-! ## Steps -/

/-- **A step away from the mailboxes.** Only verdicts change which instances there are,
and only those of their rule. -/
theorem spares_step {input : Input} (hidle : w.phase ≠ .idle)
    (hk : ∀ job vs, w.phase = .concluded job vs → w.handle.isStopped root = false →
      k ≠ job.evaluation.rule.key)
    (h : w.step? root input d = some (w', d')) : Spares k w.phase.isLeaving d (w', d') := by
  obtain ⟨r, rfl, rfl, hadvances⟩ := exists_advance hidle h
  cases hadvances with
  | @erases erasure next which ok hphase =>
      rw [hphase]
      exact ⟨congrArg (Cache.ids · k) (Shared.cache_erasureAnswer erasure which ok d), rfl⟩
  | @closes erasure next which ok hphase =>
      rw [hphase]
      have hanswer := congrArg (Cache.ids · k) (Shared.cache_erasureAnswer erasure which ok d)
      exact (spares_closeAlerts w _ next _).after hanswer
  | @resumes next hphase =>
      rw [hphase]
      exact spares_resume w next d
  | @starts e hphase =>
      rw [hphase]
      exact spares_start w e d
  | cancels hphase =>
      rcases hphase with hphase | hphase
      · rw [hphase]
        exact spares_of_cache_eq rfl rfl
      · rw [hphase]
        exact spares_of_cache_eq rfl rfl
  | pauses hphase hcalled =>
      rw [hphase]
      rcases hcalled with rfl | rfl
      · exact spares_of_cache_eq rfl rfl
      · exact spares_of_cache_eq rfl rfl
  | builds hphase =>
      rw [hphase]
      exact spares_of_cache_eq rfl rfl
  | concludes hphase =>
      rw [hphase]
      exact spares_of_cache_eq rfl rfl
  | @retries _ job error hphase =>
      rcases hphase with hphase | hphase
      · rw [hphase]
        exact spares_retry w job error d
      · rw [hphase]
        exact spares_retry w job error d
  | withdraws hphase =>
      rw [hphase]
      exact spares_of_cache_eq rfl rfl
  | @absorbs job vs hphase hgoes =>
      have hother := hk job vs hphase hgoes
      rw [hphase]
      exact spares_absorb w vs d hother
  | @evicts job processed eviction ok hphase =>
      rw [hphase]
      exact ⟨congrArg (Cache.ids · k) (Shared.cache_evictionAnswer eviction ok d), rfl⟩
  | @notifies job processed eviction ok hphase =>
      rw [hphase]
      have hanswer := congrArg (Cache.ids · k) (Shared.cache_evictionAnswer eviction ok d)
      exact (spares_notify w job processed _).after hanswer
  | completes hphase =>
      rw [hphase]
      exact spares_of_cache_eq rfl rfl

theorem ids_of_some_eq {result next : Worker × Shared}
    (hr : result.2.cache.ids k = d.cache.ids k) (h : some result = some next) :
    next.2.cache.ids k = d.cache.ids k := by
  cases h
  exact hr

theorem ids_onUpdate_of_ne (hk : k ≠ w.key) (version : Int) :
    (w.onUpdate version d).2.cache.ids k = d.cache.ids k := by
  unfold onUpdate
  split
  · rfl
  split
  · exact (spares_clear_of_ne hk (.adopt version)).ids
  · rfl

theorem ids_onEvaluation_of_ne (hk : k ≠ w.key) (e : Evaluation) :
    (w.onEvaluation e d).2.cache.ids k = d.cache.ids k := by
  unfold onEvaluation
  split
  · exact (spares_clear_of_ne hk (.evaluate e)).ids
  · rfl

/-- A look at the mailboxes leaves the other rules alone. -/
theorem ids_wake_of_ne (hk : k ≠ w.key) (h : w.wake? root d = some (w', d')) :
    d'.cache.ids k = d.cache.ids k := by
  unfold wake? at h
  split at h
  next r _ =>
      cases r with
      | ruleDeleted => exact ids_of_some_eq (spares_clear_of_ne hk .exit).ids h
      | shutdown =>
          have hspares : Spares k true d (w.resume .exit d) := spares_resume w .exit d
          exact ids_of_some_eq hspares.ids h
  next =>
      split at h
      · unfold Handle.takeUpdate at h
        dsimp only at h
        split at h
        · exact ids_of_some_eq (ids_onUpdate_of_ne (by exact hk) _) h
        · exact ids_of_some_eq rfl h
      split at h
      · cases hpending : w.handle.pending with
        | some e =>
            simp only [Handle.begin, hpending] at h
            exact ids_of_some_eq (ids_onEvaluation_of_ne (by exact hk) e) h
        | none =>
            simp only [Handle.begin, hpending] at h
            exact ids_of_some_eq rfl h
      · cases h

/-- **The look of a routine whose rule was deleted.** It drops the instances of the rule,
and the routine leaves. -/
theorem clears_wake (hstop : w.handle.stop = some .ruleDeleted)
    (h : w.wake? root d = some (w', d')) :
    d'.cache.ids w.key = [] ∧ w'.phase.isLeaving = true := by
  unfold wake? at h
  rw [Handle.reason_of_stop hstop] at h
  obtain ⟨hids, hleaving⟩ : Spares w.key true (d.erase w.key w.lastRule).2 (w', d') := by
    rw [← Option.some.inj h]
    exact spares_clear w .exit d
  exact ⟨hids.trans (Cache.ids_removeRule d.cache w.key), hleaving⟩

/-! ## The way out -/

/-- An evaluator comes to wait, or a look tells it to go on or gives it up. -/
theorem exists_step_of_called {phase : Job → Phase} {job : Job} (hphase : w.phase = phase job)
    (hcalled : phase = .building ∨ phase = .evaluating) (root : Option StopReason) (d : Shared) :
    ∃ input : Input, input.isAnswer = false ∧ (w.step? root input d).isSome = true := by
  cases hsuspended : job.suspended with
  | false =>
      refine ⟨.suspend, rfl, ?_⟩
      rcases hcalled with rfl | rfl
      · simp [step?, suspend?, hphase, hsuspended]
      · simp [step?, suspend?, hphase, hsuspended]
  | true =>
      refine ⟨.look, rfl, ?_⟩
      have hlook : (w.look? root phase job d).isSome = true := by
        unfold look?
        rw [hsuspended]
        cases w.handle.isStopped root
        · rfl
        · rfl
      rcases hcalled with rfl | rfl
      · simpa [step?, hphase] using hlook
      · simpa [step?, hphase] using hlook

/-- A stopped routine that has not come to its end can go on, without an answer of an
evaluator. -/
theorem exists_step (hstop : w.handle.isStopped root = true) (hawait : w.phase.isAwaiting = true)
    (hlive : w.isLive = true) (d : Shared) :
    ∃ input : Input, input.isAnswer = false ∧ (w.step? root input d).isSome = true := by
  unfold isLive at hlive
  cases hphase : w.phase with
  | idle =>
      obtain ⟨r, hr⟩ := Option.isSome_iff_exists.1 hstop
      exact ⟨.wake, rfl, by simp [step?, hphase, wake?, hr]⟩
  | taken e => exact ⟨.look, rfl, by simp [step?, hphase]⟩
  | erasing erasure next => exact ⟨_, rfl, isSome_step_erasing hphase hawait⟩
  | closing next => exact ⟨_, rfl, isSome_step_closing hphase⟩
  | building job => exact exists_step_of_called hphase (Or.inl rfl) root d
  | evaluating job => exact exists_step_of_called hphase (Or.inr rfl) root d
  | concluded job vs => exact ⟨.proceed, rfl, by simp [step?, hphase, hstop]⟩
  | evicting job processed eviction =>
      refine ⟨.stored 0 true, rfl, ?_⟩
      simp only [step?, hphase]
      split
      · rfl
      · rfl
  | sending job => exact ⟨.delivered, rfl, by simp [step?, hphase]⟩
  | exited =>
      rw [hphase] at hlive
      cases hlive
  | crashed =>
      rw [hphase] at hlive
      cases hlive

theorem step_of_not_live (hlive : w.isLive = false) (input : Input) :
    w.step? root input d = none := by
  unfold isLive at hlive
  unfold step?
  split at hlive
  next hphase => rw [hphase]
  next hphase => rw [hphase]
  next => cases hlive

theorem isLive_eq_false_iff : w.isLive = false ↔ w.phase = .exited ∨ w.phase = .crashed := by
  unfold isLive
  split
  next hphase => simp [hphase]
  next hphase => simp [hphase]
  next hexited hcrashed => simpa using ⟨hexited, hcrashed⟩

end Worker

namespace Phase

/-- How far a routine whose rule was deleted is from its end. -/
def stage : Phase → Nat
  | .exited | .crashed => 0
  | .closing next => if next.isExit then 1 else 5
  | .erasing _ next => if next.isExit then 2 else 6
  | .idle => 3
  | .building job | .evaluating job => if job.suspended then 4 else 5
  | .evicting _ _ _ => 5
  | _ => 4

/-- How many rows the store has yet to answer for. -/
def backlog : Phase → Nat
  | .erasing erasure _ => erasure.waiting.length
  | .evicting _ _ eviction => eviction.stale.length
  | _ => 0

/-- The end is nearer from `p'` than from `p`. -/
def Nearer (p' p : Phase) : Prop :=
  p'.stage < p.stage ∨ p'.stage = p.stage ∧ p'.backlog < p.backlog

end Phase

namespace Worker

variable {root : Option StopReason} {w w' : Worker} {d d' : Shared}

/-- What a routine goes on with is its exit or a look. -/
theorem stage_resume_le (w : Worker) (next : Resume) (d : Shared) :
    (w.resume next d).1.phase.stage ≤ if next.isExit then 0 else 4 := by
  cases next with
  | exit => exact Nat.le_refl 0
  | adopt version => exact Nat.le_succ 3
  | evaluate e => exact Nat.le_refl 4

theorem stage_closeAlerts_le (w : Worker) (removed : List Instance) (next : Resume) (d : Shared) :
    (w.closeAlerts removed next d).1.phase.stage ≤ if next.isExit then 1 else 5 := by
  have hresume := stage_resume_le w next d
  unfold closeAlerts
  dsimp only
  split
  · refine hresume.trans ?_
    split
    · exact Nat.zero_le 1
    · exact Nat.le_succ 4
  · exact Nat.le_refl _

theorem stage_clear_le (w : Worker) (next : Resume) (d : Shared) :
    (w.clear next d).1.phase.stage ≤ if next.isExit then 2 else 6 := by
  unfold clear
  dsimp only
  split
  · refine (stage_closeAlerts_le w _ next _).trans ?_
    split
    · exact Nat.le_succ 1
    · exact Nat.le_succ 5
  · exact Nat.le_refl _

theorem stage_notify_le (w : Worker) (job : Job) (processed : List Instance) (d : Shared) :
    (w.notify job processed d).1.phase.stage ≤ 4 := by
  unfold notify
  split
  · exact Nat.zero_le 4
  · exact Nat.le_succ 3
  · exact Nat.le_refl 4

/-- An answer of the store leaves fewer stale rows, or the notifier is next. -/
theorem step_evicting {job : Job} {processed : List Instance} {eviction : Eviction} {input : Input}
    (hphase : w.phase = .evicting job processed eviction)
    (h : w.step? root input d = some (w', d')) :
    (∃ rest : Eviction, rest.stale.length < eviction.stale.length ∧
        w'.phase = .evicting job processed rest) ∨
      ∃ d, w' = (w.notify job processed d).1 := by
  cases input with
  | stored which ok =>
      cases which with
      | zero =>
          simp only [step?, hphase] at h
          split at h
          · exact Or.inr ⟨_, (congrArg Prod.fst (Option.some.inj h)).symm⟩
          · rename_i hdone
            cases h
            refine Or.inl ⟨_, ?_, rfl⟩
            unfold Eviction.answer at hdone ⊢
            split at hdone
            next hstale => exact absurd (by rw [Eviction.isDone, hstale]; rfl) hdone
            next i rest hstale =>
                rw [hstale]
                exact Nat.lt_succ_self _
      | succ which => simp [step?, hphase] at h
  | _ => simp [step?, hphase] at h

/-- Without an answer of the evaluator there is a look, or the evaluator comes to wait. -/
theorem called_cases {phase : Job → Phase} {job : Job} {input : Input} {r : Worker × Shared}
    (hphase : w.phase = phase job) (hcalled : phase = .building ∨ phase = .evaluating)
    (hanswer : input.isAnswer = false) (h : w.step? root input d = some r) :
    job.suspended = true ∧ (w.handle.isStopped root = true ∧ r = (w.release, d) ∨
        w.handle.isStopped root = false ∧
          r = ({ w with phase := phase { job with suspended := false } }, d)) ∨
      job.suspended = false ∧
        r = ({ w with phase := phase { job with suspended := true } }, d) := by
  unfold step? at h
  rw [hphase] at h
  rcases hcalled with rfl | rfl
  · cases input with
    | look => exact Or.inl (look_cases h)
    | suspend => exact Or.inr (suspend_cases h)
    | built => cases hanswer
    | _ => cases h
  · cases input with
    | look => exact Or.inl (look_cases h)
    | suspend => exact Or.inr (suspend_cases h)
    | evaluated => cases hanswer
    | _ => cases h

/-- At its evaluator a stopped routine comes to wait, or the look gives the evaluation up. -/
theorem nearer_of_called {phase : Job → Phase} {job : Job} {input : Input}
    (hphase : w.phase = phase job) (hcalled : phase = .building ∨ phase = .evaluating)
    (hstop : w.handle.isStopped root = true) (hanswer : input.isAnswer = false)
    (h : w.step? root input d = some (w', d')) : w'.phase.Nearer w.phase := by
  left
  obtain ⟨hsuspended, hrelease⟩ | ⟨hworks, hwaits⟩ := called_cases hphase hcalled hanswer h
  · obtain rfl : w' = w.release := congrArg Prod.fst (hrelease.resolve_right (by simp [hstop])).2
    rw [hphase]
    rcases hcalled with rfl | rfl
    · simp [Phase.stage, release, hsuspended]
    · simp [Phase.stage, release, hsuspended]
  · obtain rfl : w' = { w with phase := phase { job with suspended := true } } :=
      congrArg Prod.fst hwaits
    rw [hphase]
    rcases hcalled with rfl | rfl
    · simp [Phase.stage, hworks]
    · simp [Phase.stage, hworks]

/-- **Every step of a routine whose rule was deleted brings it nearer to its end.** Only the
answers of an evaluator may lead to another attempt. -/
theorem nearer_of_step {input : Input} (hstop : w.handle.stop = some .ruleDeleted)
    (hanswer : input.isAnswer = false) (h : w.step? root input d = some (w', d')) :
    w'.phase.Nearer w.phase := by
  have hstopped := Handle.isStopped_of_stop hstop root
  cases hphase : w.phase with
  | idle =>
      have hwake := wake?_of_idle hphase h
      unfold wake? at hwake
      rw [Handle.reason_of_stop hstop] at hwake
      obtain rfl : (w.clear .exit d).1 = w' := congrArg Prod.fst (Option.some.inj hwake)
      exact Or.inl (Nat.lt_succ_of_le (stage_clear_le w .exit d))
  | erasing erasure next =>
      rcases step_erasing hphase h with ⟨rest, hless, hrest⟩ | hclosing | ⟨d, rfl⟩
      · rw [hrest]
        exact Or.inr ⟨rfl, hless⟩
      · rw [hclosing]
        left
        cases hexit : next.isExit <;> simp [Phase.stage, hexit]
      · refine Or.inl (Nat.lt_of_le_of_lt (stage_resume_le w next d) ?_)
        cases hexit : next.isExit <;> simp [Phase.stage, hexit]
  | closing next =>
      obtain rfl := step_closing hphase h
      refine Or.inl (Nat.lt_of_le_of_lt (stage_resume_le w next d) ?_)
      cases hexit : next.isExit <;> simp [Phase.stage, hexit]
  | building job =>
      rw [← hphase]
      exact nearer_of_called hphase (Or.inl rfl) hstopped hanswer h
  | evaluating job =>
      rw [← hphase]
      exact nearer_of_called hphase (Or.inr rfl) hstopped hanswer h
  | evicting job processed eviction =>
      rcases step_evicting hphase h with ⟨rest, hless, hrest⟩ | ⟨d, rfl⟩
      · rw [hrest]
        exact Or.inr ⟨rfl, hless⟩
      · exact Or.inl (Nat.lt_succ_of_le (stage_notify_le w job processed d))
  | exited => exact absurd h (by simp [step_of_not_live, isLive, hphase])
  | crashed => exact absurd h (by simp [step_of_not_live, isLive, hphase])
  | _ =>
      -- whatever its evaluation is at, the routine gives it up
      have hrelease : w' = w.release := by
        unfold step? at h
        rw [hphase] at h
        cases input <;> simp_all [start, complete]
      rw [hrelease]
      exact Or.inl (Nat.lt_succ_self 3)

end Worker

end Vigil
