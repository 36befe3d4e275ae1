import Vigil.Proofs.Engine.Looks
import Vigil.Proofs.Engine.Turns

/-!
# Versions of a rule

An evaluation at work is of the version that its routine is at, and no routine returns to the
zero that it starts with (`Worker.Versioned`, `Worker.succeeds_step`). For another version than
its own a routine clears the instances of its rule (`Worker.clears_of_update`,
`Worker.clears_of_evaluation`). So as long as there are instances the version stays, and all
verdicts that are applied are of that version (`Worker.Path.version_eq`).
-/

namespace Vigil

/-- The version that a routine is at when it goes on. -/
def Resume.version? : Resume → Option Int
  | .exit => none
  | .adopt version => some version
  | .evaluate e => some e.rule.version

/-- What a routine that clears its rule's instances goes on with. -/
def Phase.next? : Phase → Option Resume
  | .erasing _ next | .closing next => some next
  | _ => none

/-- The evaluation that an evaluator is asked for or is at work on. -/
def Phase.called? : Phase → Option Evaluation
  | .building job | .evaluating job => some job.evaluation
  | _ => none

theorem Phase.called?_of_busy {p : Phase} {job : Job}
    (h : p = .building job ∨ p = .evaluating job) : p.called? = some job.evaluation := by
  rcases h with rfl | rfl
  · rfl
  · rfl

theorem Phase.upcoming?_of_called? {p : Phase} {e : Evaluation} (h : p.called? = some e) :
    p.next? = none ∧ p.upcoming? = some e := by
  cases p with
  | building job => exact ⟨rfl, h⟩
  | evaluating job => exact ⟨rfl, h⟩
  | _ => cases h

theorem Phase.next?_eq_some_iff {p : Phase} {next : Resume} :
    p.next? = some next ↔ (∃ erasure, p = .erasing erasure next) ∨ p = .closing next := by
  cases p <;> simp [next?]

theorem Phase.upcoming?_of_onward? {p : Phase} {e : Evaluation} (h : p.onward? = some e) :
    p.upcoming? = some e := by
  cases p with
  | concluded job vs => cases h
  | _ => exact h

namespace Worker

variable {root : Option StopReason} {w w' v : Worker} {d d' : Shared} {next : Resume}
  {e : Evaluation} {input : Input} {r : Worker × Shared}

/-! ## Away from the mailboxes -/

/-- From `w` to `w'` a routine goes on with its evaluation. -/
structure Works (w w' : Worker) : Prop where
  version : w'.version = w.version
  next : w'.phase.next? = none
  update : w'.handle.update = w.handle.update

theorem works_release (w : Worker) : Works w w.release := ⟨rfl, rfl, rfl⟩

theorem works_start (w : Worker) (root : Option StopReason) (e : Evaluation) (d : Shared) :
    Works w (w.start root e d).1 := by
  unfold start
  split
  · exact works_release w
  · exact ⟨rfl, rfl, rfl⟩

theorem works_retry (w : Worker) (job : Job) (error : EngineError) (d : Shared) :
    Works w (w.retry job error d).1 := by
  unfold retry
  dsimp only
  split
  · exact ⟨rfl, rfl, rfl⟩
  · exact ⟨rfl, rfl, rfl⟩

theorem works_notify (w : Worker) (job : Job) (processed : List Instance) (d : Shared) :
    Works w (w.notify job processed d).1 := by
  unfold notify
  split
  · exact ⟨rfl, rfl, rfl⟩
  · exact works_release w
  · exact ⟨rfl, rfl, rfl⟩

theorem works_absorb (w : Worker) (job : Job) (vs : List Verdict) (d : Shared) :
    Works w (w.absorb job vs d).1 := by
  unfold absorb
  dsimp only
  split
  · exact ⟨rfl, rfl, rfl⟩
  · split
    · exact works_notify w job _ _
    · exact ⟨rfl, rfl, rfl⟩

theorem works_step (hidle : w.phase ≠ .idle) (hnext : w.phase.next? = none)
    (h : w.step? root input d = some (w', d')) : Works w w' := by
  obtain ⟨r, rfl, rfl, hadvances⟩ := exists_advance hidle h
  cases hadvances with
  | erases hphase =>
      rw [hphase] at hnext
      cases hnext
  | closes hphase =>
      rw [hphase] at hnext
      cases hnext
  | resumes hphase =>
      rw [hphase] at hnext
      cases hnext
  | @starts e => exact works_start w root e d
  | cancels => exact works_release w
  | pauses _ hcalled =>
      rcases hcalled with rfl | rfl
      · exact ⟨rfl, rfl, rfl⟩
      · exact ⟨rfl, rfl, rfl⟩
  | builds => exact ⟨rfl, rfl, rfl⟩
  | concludes => exact ⟨rfl, rfl, rfl⟩
  | @retries _ job error => exact works_retry w job error d
  | withdraws => exact works_release w
  | @absorbs job vs => exact works_absorb w job vs d
  | evicts => exact ⟨rfl, rfl, rfl⟩
  | @notifies job processed => exact works_notify w job processed _
  | completes => exact works_release w

/-! ## Versions -/

/-- The version of a routine is that of its evaluation, and none that it adopts is zero. -/
structure Versioned (w : Worker) : Prop where
  nonneg : 0 ≤ w.version
  next : ∀ next v, w.phase.next? = some next → next.version? = some v → 0 < v
  upcoming : w.phase.next? = none → ∀ e, w.phase.upcoming? = some e →
    0 < w.version ∧ e.rule.version = w.version

/-- From `w` to `w'` a routine keeps its version or adopts one. -/
structure Succeeds (w w' : Worker) : Prop where
  versioned : w'.Versioned
  version : w'.version = w.version ∨ 0 < w'.version

theorem versioned_new (k : RuleKey) : (new k).Versioned :=
  ⟨Int.le_refl 0, fun _ _ h => absurd h nofun, fun _ _ h => absurd h nofun⟩

theorem Versioned.abides (hw : w.Versioned) (h : w.Abides w') : w'.Versioned := by
  rw [h.own]
  exact ⟨hw.nonneg, hw.next, hw.upcoming⟩

theorem Succeeds.pos (h : w.Succeeds w') (hw : 0 < w.version) : 0 < w'.version := by
  rcases h.version with hsame | hpos
  · rw [hsame]
    exact hw
  · exact hpos

/-- Where there is no evaluation at work the version alone counts. -/
theorem succeeds_of_upcoming_none (hw : 0 ≤ w.version)
    (hv : w'.version = w.version ∨ 0 < w'.version) (hnext : w'.phase.next? = none)
    (hup : w'.phase.upcoming? = none) : Succeeds w w' := by
  refine ⟨⟨?_, fun next v h => ?_, fun _ e h => ?_⟩, hv⟩
  · omega
  · cases hnext.symm.trans h
  · cases hup.symm.trans h

theorem succeeds_of_next (hw : 0 ≤ w.version) (hv : w'.version = w.version)
    (hphase : w'.phase.next? = some next) (hnext : ∀ v, next.version? = some v → 0 < v) :
    Succeeds w w' := by
  refine ⟨⟨hv ▸ hw, fun next' v h => ?_, fun h => ?_⟩, Or.inl hv⟩
  · obtain rfl := Option.some.inj (hphase.symm.trans h)
    exact hnext v
  · cases hphase.symm.trans h

theorem succeeds_take (w : Worker) (he : 0 < e.rule.version) : Succeeds w (w.take e) := by
  refine ⟨⟨Int.le_of_lt he, fun _ _ h => absurd h nofun, fun _ e' h => ?_⟩, Or.inr he⟩
  obtain rfl := Option.some.inj h
  exact ⟨he, rfl⟩

theorem succeeds_resume (hw : 0 ≤ w.version) (hnext : ∀ v, next.version? = some v → 0 < v) :
    Succeeds w (w.resume next d).1 := by
  cases next with
  | exit => exact succeeds_of_upcoming_none hw (Or.inl rfl) rfl rfl
  | adopt version => exact succeeds_of_upcoming_none hw (Or.inr (hnext version rfl)) rfl rfl
  | evaluate e => exact succeeds_take w (hnext _ rfl)

theorem succeeds_closeAlerts (hw : 0 ≤ w.version) (removed : List Instance)
    (hnext : ∀ v, next.version? = some v → 0 < v) :
    Succeeds w (w.closeAlerts removed next d).1 := by
  rw [closeAlerts_eq]
  split
  · exact succeeds_resume hw hnext
  · exact succeeds_of_next hw rfl rfl hnext

theorem succeeds_clear (hw : 0 ≤ w.version) (hnext : ∀ v, next.version? = some v → 0 < v) :
    Succeeds w (w.clear next d).1 := by
  rw [clear_eq]
  split
  · exact succeeds_resume hw hnext
  · exact succeeds_of_next hw rfl rfl hnext

theorem Succeeds.of_version_eq (h : v.Succeeds w') (hv : v.version = w.version) :
    w.Succeeds w' :=
  ⟨h.versioned, hv ▸ h.version⟩

theorem succeeds_idle (hw : 0 ≤ w.version) (hidle : w'.phase = .idle)
    (hv : w'.version = w.version ∨ 0 < w'.version) : Succeeds w w' := by
  refine succeeds_of_upcoming_none hw hv ?_ ?_
  · rw [hidle]
    rfl
  · rw [hidle]
    rfl

theorem succeeds_onUpdate (hw : 0 ≤ w.version) (hidle : w.phase = .idle) (version : Int)
    (d : Shared) : Succeeds w (w.onUpdate version d).1 := by
  unfold onUpdate
  split
  next => exact succeeds_idle hw hidle (Or.inl rfl)
  next hhigher =>
      have hpos : 0 < version := Int.lt_of_le_of_lt hw (Int.not_le.1 hhigher)
      split
      · refine succeeds_clear hw fun v hv => ?_
        obtain rfl := Option.some.inj hv
        exact hpos
      · exact succeeds_idle hw hidle (Or.inr hpos)

theorem succeeds_onEvaluation (hw : 0 ≤ w.version) (he : 0 < e.rule.version) (d : Shared) :
    Succeeds w (w.onEvaluation e d).1 := by
  unfold onEvaluation
  split
  · refine succeeds_clear hw fun v hv => ?_
    obtain rfl := Option.some.inj hv
    exact he
  · exact succeeds_take w he

theorem succeeds_look (hw : 0 ≤ w.version) (hidle : w.phase = .idle)
    (hpending : ∀ e, w.handle.pending = some e → 0 < e.rule.version) (h : Look root w d r) :
    Succeeds w r.1 := by
  cases h with
  | @stop reason hr =>
      cases reason with
      | ruleDeleted => exact succeeds_clear hw nofun
      | shutdown => exact succeeds_resume hw nofun
  | @update version _ =>
      refine Succeeds.of_version_eq (v := { w with handle := w.handle.withoutUpdate }) ?_ rfl
      exact succeeds_onUpdate (by exact hw) (by exact hidle) version d
  | noUpdate => exact succeeds_idle hw hidle (Or.inl rfl)
  | @evaluation e he =>
      refine Succeeds.of_version_eq (v := { w with handle := w.handle.withoutEvaluation true })
        ?_ rfl
      exact succeeds_onEvaluation (by exact hw) (hpending e he) d
  | noEvaluation => exact succeeds_idle hw hidle (Or.inl rfl)

/-- **A step keeps versions.** -/
theorem succeeds_step (hw : w.Versioned)
    (hpending : ∀ e, w.handle.pending = some e → 0 < e.rule.version)
    (h : w.step? root input d = some r) : Succeeds w r.1 := by
  by_cases hidle : w.phase = .idle
  · exact succeeds_look hw.nonneg hidle hpending (look_of_wake (wake?_of_idle hidle h))
  cases hnext : w.phase.next? with
  | none =>
      obtain ⟨hversion, hnext', -⟩ := works_step hidle hnext h
      refine ⟨⟨hversion ▸ hw.nonneg, fun next v h' => ?_, fun _ e he => ?_⟩, Or.inl hversion⟩
      · cases hnext'.symm.trans h'
      · rw [hversion]
        exact hw.upcoming hnext e (Phase.upcoming?_of_onward? ((moves_step hidle h).upcoming e he))
  | some next =>
      have hpos : ∀ v, next.version? = some v → 0 < v := fun v => hw.next next v hnext
      rcases Phase.next?_eq_some_iff.1 hnext with ⟨erasure, hphase⟩ | hphase
      · obtain ⟨which, ok, -, rfl⟩ := erasing_cases hphase h
        split
        · exact succeeds_closeAlerts hw.nonneg _ hpos
        · exact succeeds_of_next hw.nonneg rfl rfl hpos
      · rw [closing_cases hphase h]
        exact succeeds_resume hw.nonneg hpos

/-! ## Another version -/

/-- Away from the mailboxes no version is taken. -/
theorem update_step (hidle : w.phase ≠ .idle) (h : w.step? root input d = some r) :
    r.1.handle.update = w.handle.update := by
  cases hnext : w.phase.next? with
  | none =>
      have hworks : Works w r.1 := works_step hidle hnext h
      exact hworks.update
  | some next =>
      rcases Phase.next?_eq_some_iff.1 hnext with ⟨erasure, hphase⟩ | hphase
      · obtain ⟨which, ok, -, rfl⟩ := erasing_cases hphase h
        split
        · exact update_closeAlerts w _ next _
        · rfl
      · rw [closing_cases hphase h]
        exact update_resume w next d

theorem update_onEvaluation (w : Worker) (e : Evaluation) (d : Shared) :
    (w.onEvaluation e d).1.handle.update = w.handle.update := by
  unfold onEvaluation
  split
  · exact update_clear w _ d
  · rfl

theorem update_onStop (w : Worker) (reason : StopReason) (d : Shared) :
    (w.onStop reason d).1.handle.update = w.handle.update := by
  cases reason with
  | ruleDeleted => exact update_clear w .exit d
  | shutdown => exact update_resume w .exit d

theorem pending_onUpdate (hidle : w.phase = .idle) (version : Int) (d : Shared) :
    (w.onUpdate version d).1.handle.pending = w.handle.pending := by
  have hmoves : Moves True none Cache.undated w d (w.onUpdate version d).1
      (w.onUpdate version d).2 := moves_onUpdate hidle version d
  exact hmoves.pending

theorem pending_onStop (w : Worker) (reason : StopReason) (d : Shared) :
    (w.onStop reason d).1.handle.pending = w.handle.pending := by
  have hmoves : Moves True none Cache.undated w d (w.onStop reason d).1
      (w.onStop reason d).2 := moves_onStop w reason d
  exact hmoves.pending

/-- For a higher version a routine clears the instances of its rule. -/
theorem clears_of_update {version : Int} (hupdate : w.handle.update = some version)
    (hhigher : w.version < version) (hpos : 0 < w.version)
    (h : w.step? root input d = some r) (htaken : r.1.handle.update = none) :
    ∃ handle : Handle, handle.key = w.handle.key ∧
      r = ({ w with handle } : Worker).clear (.adopt version) d := by
  have hkept : r.1.handle.update ≠ w.handle.update := by
    rw [htaken, hupdate]
    exact nofun
  by_cases hidle : w.phase = .idle
  · have hlook : Look root w d r := look_of_wake (wake?_of_idle hidle h)
    cases hlook with
    | @stop reason _ => exact absurd (update_onStop w reason d) hkept
    | @update version' hv =>
        obtain rfl := Option.some.inj (hupdate.symm.trans hv)
        refine ⟨w.handle.withoutUpdate, rfl, ?_⟩
        rw [onUpdate, if_neg (Int.not_le.2 hhigher), if_pos hpos]
    | noUpdate hv => cases hupdate.symm.trans hv
    | @evaluation e _ => exact absurd (update_onEvaluation _ e d) hkept
    | noEvaluation => exact absurd rfl hkept
  · exact absurd (update_step hidle h) hkept

/-- So it does for an evaluation of another version. -/
theorem clears_of_evaluation (hpending : w.handle.pending = some e)
    (hother : e.rule.version ≠ w.version) (hpos : 0 < w.version)
    (h : w.step? root input d = some r) (htaken : r.1.handle.pending = none) :
    ∃ handle : Handle, handle.key = w.handle.key ∧
      r = ({ w with handle } : Worker).clear (.evaluate e) d := by
  have hkept : r.1.handle.pending ≠ w.handle.pending := by
    rw [htaken, hpending]
    exact nofun
  by_cases hidle : w.phase = .idle
  · have hlook : Look root w d r := look_of_wake (wake?_of_idle hidle h)
    cases hlook with
    | @stop reason _ => exact absurd (pending_onStop w reason d) hkept
    | @update version _ => exact absurd (pending_onUpdate (by exact hidle) version d) hkept
    | noUpdate => exact absurd rfl hkept
    | @evaluation e' he =>
        obtain rfl := Option.some.inj (hpending.symm.trans he)
        refine ⟨w.handle.withoutEvaluation true, rfl, ?_⟩
        rw [onEvaluation, if_pos ⟨hother, hpos⟩]
    | noEvaluation he => cases hpending.symm.trans he
  · exact absurd (moves_step hidle h).pending hkept

/-! ## Instances and versions -/

/-- A look drops the instances of the rule or leaves them alone. -/
theorem ids_look (h : Look root w d r) :
    r.2.cache.ids w.key = [] ∨ r.2.cache.ids w.key = d.cache.ids w.key := by
  cases h with
  | @stop reason _ =>
      cases reason with
      | ruleDeleted => exact Or.inl (ids_clear w .exit d)
      | shutdown => exact Or.inr rfl
  | update =>
      unfold onUpdate
      split
      · exact Or.inr rfl
      split
      · exact Or.inl (ids_clear _ _ d)
      · exact Or.inr rfl
  | noUpdate => exact Or.inr rfl
  | @evaluation e _ =>
      unfold onEvaluation
      split
      · exact Or.inl (ids_clear _ _ d)
      · exact Or.inr rfl
  | noEvaluation => exact Or.inr rfl

/-- Only verdicts bring instances. -/
theorem concluded_of_new {id : String} (hnew : id ∉ d.cache.ids w.key)
    (hid : id ∈ r.2.cache.ids w.key) (h : w.step? root input d = some r) :
    ∃ job vs, w.phase = .concluded job vs ∧ w.handle.isStopped root = false := by
  by_cases hidle : w.phase = .idle
  · rcases ids_look (look_of_wake (wake?_of_idle hidle h)) with hnone | hsame
    · rw [hnone] at hid
      cases hid
    · exact absurd (hsame ▸ hid) hnew
  · by_contra hother
    have hspares : Spares w.key w.phase.isLeaving d r := by
      refine spares_step hidle (fun job vs hphase hstop => ?_) h
      exact absurd ⟨job, vs, hphase, hstop⟩ hother
    exact hnew (hspares.ids ▸ hid)

/-- A look that leaves the rule an instance leaves the version as it is. -/
theorem version_look (hpos : 0 < w.version) (hidle : w.phase = .idle) (h : Look root w d r) :
    r.2.cache.ids w.key = [] ∨ r.1.version = w.version ∧ r.1.phase.next? = none := by
  have hnext : w.phase.next? = none := by
    rw [hidle]
    rfl
  cases h with
  | @stop reason _ =>
      cases reason with
      | ruleDeleted => exact Or.inl (ids_clear w .exit d)
      | shutdown => exact Or.inr ⟨rfl, rfl⟩
  | update =>
      unfold onUpdate
      split
      · exact Or.inr ⟨rfl, hnext⟩
      · exact Or.inl (ids_clear _ _ d)
  | noUpdate => exact Or.inr ⟨rfl, hnext⟩
  | @evaluation e _ =>
      unfold onEvaluation
      split
      · exact Or.inl (ids_clear _ _ d)
      next hsame =>
          right
          have hversion : e.rule.version = w.version := by
            by_contra hne
            exact hsame ⟨hne, hpos⟩
          exact ⟨hversion, rfl⟩
  | noEvaluation => exact Or.inr ⟨rfl, hnext⟩

theorem version_step (hpos : 0 < w.version) (hnext : w.phase.next? = none)
    (h : w.step? root input d = some r) :
    r.2.cache.ids w.key = [] ∨ r.1.version = w.version ∧ r.1.phase.next? = none := by
  by_cases hidle : w.phase = .idle
  · exact version_look hpos hidle (look_of_wake (wake?_of_idle hidle h))
  · have hworks : Works w r.1 := works_step hidle hnext h
    exact Or.inr ⟨hworks.version, hworks.next⟩

/-! ## Turns -/

namespace Turn

/-- The evaluation whose verdicts a turn applies. -/
def applied? (t : Turn) : Option Evaluation :=
  match t.worker.phase with
  | .concluded job _ => if t.worker.handle.isStopped t.root then none else some job.evaluation
  | _ => none

/-- The turn brings the rule an instance. -/
def Creates (t : Turn) (id : String) : Prop :=
  id ∉ t.shared.cache.ids t.worker.key ∧ id ∈ t.shared'.cache.ids t.worker.key

/-- The rule has an instance before the turn and after it. -/
def Holds (t : Turn) (id : String) : Prop :=
  id ∈ t.shared.cache.ids t.worker.key ∧ id ∈ t.shared'.cache.ids t.worker.key

instance (t : Turn) (id : String) : Decidable (t.Creates id) :=
  inferInstanceAs (Decidable (_ ∧ _))

instance (t : Turn) (id : String) : Decidable (t.Holds id) :=
  inferInstanceAs (Decidable (_ ∧ _))

/-- The batches that a turn sends. -/
def sent (t : Turn) : List (RuleKey × List Alert) :=
  t.shared'.batches.drop t.shared.batches.length

/-- The turn takes a version from the mailbox that is higher than its own, or an evaluation of
another version. -/
inductive Renews (t : Turn) : Resume → Prop where
  | update {version : Int} (hupdate : t.worker.handle.update = some version)
      (htaken : t.worker'.handle.update = none) (hhigher : t.worker.version < version) :
      t.Renews (.adopt version)
  | evaluation {e : Evaluation} (hpending : t.worker.handle.pending = some e)
      (htaken : t.worker'.handle.pending = none) (hother : e.rule.version ≠ t.worker.version) :
      t.Renews (.evaluate e)

variable {t : Turn}

theorem phase_of_applied? (h : t.applied? = some e) :
    t.worker.phase.next? = none ∧ t.worker.phase.upcoming? = some e := by
  unfold applied? at h
  split at h
  next hphase =>
      rw [hphase]
      exact ⟨rfl, (Option.ite_none_left_eq_some.1 h).2⟩
  next => cases h

theorem exists_applied (ht : t.IsStep) {id : String} (h : t.Creates id) :
    ∃ e, t.applied? = some e := by
  obtain ⟨job, vs, hphase, hstop⟩ := concluded_of_new (r := (t.worker', t.shared')) h.1 h.2 ht
  refine ⟨job.evaluation, ?_⟩
  rw [applied?, hphase]
  dsimp only
  rw [hstop]
  rfl

theorem sent_eq {batches : List (RuleKey × List Alert)}
    (h : t.shared'.batches = t.shared.batches ++ batches) : t.sent = batches := by
  rw [sent, h, List.drop_left]

theorem Renews.isSome_version? (h : t.Renews next) : next.version?.isSome = true := by
  cases h with
  | update => rfl
  | evaluation => rfl

/-- To take up another version a routine clears the instances of its rule. -/
theorem Renews.clears (h : t.Renews next) (ht : t.IsStep) (hpos : 0 < t.worker.version) :
    ∃ handle : Handle, handle.key = t.worker.handle.key ∧
      (t.worker', t.shared') =
        ({ t.worker with handle } : Worker).clear next t.shared := by
  cases h with
  | update hupdate htaken hhigher => exact clears_of_update hupdate hhigher hpos ht htaken
  | evaluation hpending htaken hother =>
      exact clears_of_evaluation hpending hother hpos ht htaken

end Turn

/-! ## Runs -/

variable {ts : List Turn} {t : Turn}

theorem Path.succeeds (h : w.Path ts v) (hw : w.Versioned)
    (hpending : ∀ t ∈ ts, ∀ e, t.worker.handle.pending = some e → 0 < e.rule.version) :
    w.Succeeds v := by
  induction h with
  | refl => exact ⟨hw, Or.inl rfl⟩
  | wait _ hv ih =>
      have hbefore := ih hpending
      refine ⟨hbefore.versioned.abides hv, ?_⟩
      rw [hv.version]
      exact hbefore.version
  | @turn ts t _ ht ih =>
      rw [List.forall_mem_append, List.forall_mem_singleton] at hpending
      have hbefore := ih hpending.1
      have hstep : t.worker.Succeeds t.worker' := succeeds_step hbefore.versioned hpending.2 ht
      refine ⟨hstep.versioned, ?_⟩
      rcases hbefore.version with hsame | hpos
      · rw [← hsame]
        exact hstep.version
      · exact Or.inr (hstep.pos hpos)

/-- A routine that has changed its version once has one ever after. -/
theorem Path.pos_of_adopted (h : w.Path ts v) (hw : w.Versioned)
    (hpending : ∀ t ∈ ts, ∀ e, t.worker.handle.pending = some e → 0 < e.rule.version)
    (hadopted : ∃ t ∈ ts, t.worker'.version ≠ t.worker.version) : 0 < v.version := by
  induction h with
  | refl =>
      obtain ⟨t, ht, -⟩ := hadopted
      cases ht
  | wait _ hv ih =>
      rw [hv.version]
      exact ih hpending hadopted
  | @turn ts t hpath ht ih =>
      rw [List.forall_mem_append, List.forall_mem_singleton] at hpending
      have hbefore := hpath.succeeds hw hpending.1
      have hstep : t.worker.Succeeds t.worker' := succeeds_step hbefore.versioned hpending.2 ht
      obtain ⟨s, hs, hne⟩ := hadopted
      rcases List.mem_append.1 hs with hs | hs
      · exact hstep.pos (ih hpending.1 ⟨s, hs, hne⟩)
      · obtain rfl := List.mem_singleton.1 hs
        exact hstep.version.resolve_left hne

/-- **As long as the rule has instances the version stays,** and all verdicts that the routine
applies are of that version. -/
theorem Path.version_eq (h : w.Path ts v) (hw : w.Versioned) (hpos : 0 < w.version)
    (hnext : w.phase.next? = none)
    (hpending : ∀ t ∈ ts, ∀ e, t.worker.handle.pending = some e → 0 < e.rule.version)
    (hids : ∀ t ∈ ts, t.shared'.cache.ids t.worker.key ≠ []) :
    (v.version = w.version ∧ v.phase.next? = none) ∧
      ∀ t ∈ ts, ∀ e, t.applied? = some e → e.rule.version = w.version := by
  induction h with
  | refl => exact ⟨⟨rfl, hnext⟩, List.forall_mem_nil _⟩
  | wait _ hv ih =>
      rw [hv.version, hv.phase]
      exact ih hpending hids
  | @turn ts t hpath ht ih =>
      rw [List.forall_mem_append, List.forall_mem_singleton] at hpending hids ⊢
      obtain ⟨⟨hversion, hnone⟩, happlied⟩ := ih hpending.1 hids.1
      have hversioned := (hpath.succeeds hw hpending.1).versioned
      refine ⟨?_, happlied, fun e he => ?_⟩
      · have hstep := version_step (hversion ▸ hpos) hnone ht
        obtain ⟨hsame, hnone'⟩ := hstep.resolve_left hids.2
        exact ⟨hsame.trans hversion, hnone'⟩
      · obtain ⟨-, hupcoming⟩ := Turn.phase_of_applied? he
        exact (hversioned.upcoming hnone e hupcoming).2.trans hversion

end Worker

end Vigil
