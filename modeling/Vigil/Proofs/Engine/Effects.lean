import Vigil.Proofs.Cache.Names
import Vigil.Proofs.Engine.Turns
import Vigil.Proofs.Engine.Versions
import Vigil.Proofs.Round.Delivery

/-!
# What a routine does to what is shared

A step of a routine clears the instances of its rule, closes their alerts, counts an
evaluation, applies its verdicts, sends what is due or reports that it is done. Every other
step leaves the instances, the counts and the reports alone (`Worker.Effect`,
`Worker.effect_step`). So a routine writes to the instances of its own rule only
(`Worker.ofRule_step_of_ne`), as long as what it sends is what it processed of that rule
(`System.Filed`, `System.filed_run`).
-/

namespace Vigil

/-- The evaluation that an event reports as applied. -/
def Event.report? : Event → Option (RuleKey × Moment)
  | .applied k t => some (k, t)
  | _ => none

namespace Shared

/-- The evaluations reported as applied so far. -/
def reports (d : Shared) : List (RuleKey × Moment) := d.journal.filterMap (·.event.report?)

theorem reports_log (d : Shared) (e : Event) :
    (d.log e).reports = d.reports ++ e.report?.toList := by
  unfold reports log
  rw [List.filterMap_append]
  cases h : e.report? <;> simp [h]

/-- From `d` to `d'` no instance is touched, and nothing is counted or reported. -/
structure Untouched (d' d : Shared) : Prop where
  cache : d'.cache = d.cache
  metrics : d'.metrics = d.metrics
  reports : d'.reports = d.reports

variable {d d' d'' : Shared}

theorem Untouched.refl (d : Shared) : Untouched d d := ⟨rfl, rfl, rfl⟩

theorem Untouched.trans (h' : Untouched d'' d') (h : Untouched d' d) : Untouched d'' d :=
  ⟨h'.cache.trans h.cache, h'.metrics.trans h.metrics, h'.reports.trans h.reports⟩

theorem untouched_log (d : Shared) {e : Event} (he : e.report? = none) :
    Untouched (d.log e) d := by
  refine ⟨rfl, rfl, ?_⟩
  rw [reports_log, he, Option.toList_none, List.append_nil]

theorem isFrame_untouched : IsFrame Untouched :=
  ⟨Untouched.refl, Untouched.trans, fun d _ => untouched_log d rfl⟩

theorem untouched_deleteRow (d : Shared) (i : Instance) (ok : Bool) :
    Untouched (d.deleteRow i ok) d := by
  cases ok
  · exact untouched_log d rfl
  · have hlog : Untouched (d.deleteRow i true)
        { d with store := d.store.delete i.org i.ruleUid i.labels.id } := untouched_log _ rfl
    exact ⟨hlog.cache, hlog.metrics, hlog.reports⟩

theorem untouched_erasureAnswer (e : Erasure) (which : Nat) (ok : Bool) (d : Shared) :
    Untouched (e.answer which ok d).2 d := by
  unfold Erasure.answer
  split
  · exact .refl d
  · dsimp only
    split
    · exact (isFrame_untouched.close ..).trans (untouched_deleteRow ..)
    · exact untouched_deleteRow ..

theorem untouched_evictionAnswer (e : Eviction) (ok : Bool) (d : Shared) :
    Untouched (e.answer ok d).2 d := by
  unfold Eviction.answer
  split
  · exact .refl d
  · exact (isFrame_untouched.annotateClosing ..).trans (untouched_deleteRow ..)

/-- A round writes to the cache and takes notes, and no more. -/
theorem untouched_round (d : Shared) (r : Rule) (vs : List Verdict) (extra : Labels) :
    Untouched (d.round r vs extra).2
      { d with cache := (d.cache.round d.state d.clock r vs extra).2 } := by
  unfold round
  split
  · rename_i c hround
    rw [hround]
    exact .refl _
  · rename_i rd c hround
    rw [hround]
    exact isFrame_untouched.foldl (f := fun d' x => d'.annotate (Change.note r x))
      (fun d' _ => untouched_log d' rfl) _ _

end Shared

/-! ## The instances of one rule -/

namespace Sweep

variable {r : Rule} {extra : Labels} {p : TransitionPolicy} {history : Nat}

/-- What a sweep reports is of its rule. -/
theorem ruleKey_of_processed {rs : RuleInstances} (hrs : rs.Named r.key) {vs : List Verdict}
    (h : (run r extra p history rs vs).failed = false) :
    ∀ i ∈ (run r extra p history rs vs).processed, i.ruleKey = r.key := by
  induction vs using List.reverseRecOn with
  | nil => exact List.forall_mem_nil _
  | append_singleton vs v ih =>
      obtain ⟨hs, -, -, hcases⟩ := run_snoc_cases h
      have hnamed : RuleInstances.Named (run r extra p history rs vs).instances r.key :=
        (named_run hrs vs).1
      rcases hcases with ⟨-, -, hprocessed⟩ | ⟨-, after, rfl, -, hprocessed⟩
      · rw [hprocessed, List.forall_mem_append]
        exact ⟨ih hs, fun i hi => (hnamed _ i (Option.mem_toList.1 hi)).ruleKey⟩
      · rw [hprocessed, List.forall_mem_append, List.forall_mem_singleton]
        refine ⟨ih hs, ?_⟩
        have hknown : (((run r extra p history rs vs).instances.find? (r.idOf extra v)).getD
            (.new r (r.expand extra v.labels) history)).NamedAs r.key (r.idOf extra v) := by
          cases hi : (run r extra p history rs vs).instances.find? (r.idOf extra v) with
          | some i => exact hnamed _ i hi
          | none => exact Instance.namedAs_new r _ history
        exact (hknown.apply r v p).ruleKey

end Sweep

namespace Cache

variable {c : Cache} {settings : StateSettings} {now : Moment} {r : Rule} {vs : List Verdict}
  {extra : Labels} {k : RuleKey}

theorem ruleKey_of_round (h : c.Named) {rd : Round}
    (hround : (c.round settings now r vs extra).1 = some rd) :
    ∀ i ∈ rd.processed, i.ruleKey = r.key := by
  obtain ⟨p, kept, -, hs, hprocessed, -⟩ := split_of_round (Prod.ext hround rfl)
  rw [hprocessed]
  exact Sweep.ruleKey_of_processed (h r.key) hs

theorem ofRule_round_of_ne (h : k ≠ r.key) :
    (c.round settings now r vs extra).2.ofRule k = c.ofRule k := by
  unfold round
  split
  · rfl
  · exact ofRule_setRule_of_ne c _ h

theorem ofRule_markSent_of_ne {sent : List Instance} (h : ∀ i ∈ sent, i.ruleKey ≠ k) :
    (c.markSent sent).ofRule k = c.ofRule k := by
  induction sent generalizing c with
  | nil => rfl
  | cons i sent ih =>
      rw [List.forall_mem_cons] at h
      rw [markSent_cons, ih h.2, ofRule_setRule_of_ne c _ (Ne.symm h.1)]

end Cache

/-! ## The routine -/

namespace Phase

/-- Whether verdicts are being applied. They are in the cache, and their evaluation is yet to
be reported. A routine that crashed never reports it. -/
def isApplying : Phase → Bool
  | .evicting _ _ _ | .sending _ | .crashed => true
  | _ => false

/-- Whether an evaluator is being built or put to work that has not had to wait since the last
look at the stop signal. -/
def isUnderWay : Phase → Bool
  | .building job | .evaluating job => !job.suspended
  | _ => false

/-- No evaluator is under way, and no verdicts are being applied. -/
structure IsCalm (p : Phase) : Prop where
  isUnderWay : p.isUnderWay = false
  isApplying : p.isApplying = false

/-- What was processed and is yet to be sent. -/
def processed : Phase → List Instance
  | .evicting _ processed _ => processed
  | _ => []

theorem isApplying_of_called {p : Phase} {e : Evaluation} (h : p.called? = some e) :
    p.isApplying = false := by
  cases p with
  | building job => rfl
  | evaluating job => rfl
  | _ => cases h

theorem isUnderWay_of_called {phase : Job → Phase} (h : phase = .building ∨ phase = .evaluating)
    (job : Job) : (phase job).isUnderWay = !job.suspended := by
  rcases h with rfl | rfl
  · rfl
  · rfl

theorem isUnderWay_of_busy {p : Phase} {job : Job} (h : p = .building job ∨ p = .evaluating job)
    (hworks : job.suspended = false) : p.isUnderWay = true := by
  rcases h with rfl | rfl
  · exact congrArg not hworks
  · exact congrArg not hworks

theorem processed_of_not_isApplying {p : Phase} (h : p.isApplying = false) : p.processed = [] := by
  cases p with
  | evicting => cases h
  | _ => rfl

end Phase

namespace Worker

variable {root : Option StopReason} {w w' : Worker} {d d' : Shared} {input : Input}
  {r : Worker × Shared} {k : RuleKey} {e : Evaluation}

theorem untouched_start (w : Worker) (e : Evaluation) (d : Shared) :
    (w.start root e d).2.Untouched d := by
  unfold start
  split
  · exact .refl d
  · exact Shared.untouched_log d rfl

theorem untouched_resume (w : Worker) (next : Resume) (d : Shared) :
    (w.resume next d).2.Untouched d := by
  cases next with
  | exit => exact Shared.untouched_log d rfl
  | adopt version => exact .refl d
  | evaluate e => exact .refl d

theorem untouched_closeAlerts (w : Worker) (removed : List Instance) (next : Resume)
    (d : Shared) : (w.closeAlerts removed next d).2.Untouched d := by
  rw [closeAlerts_eq]
  split
  · exact untouched_resume w next d
  · exact Shared.untouched_log d rfl

/-- To clear a rule is to drop its instances. -/
theorem untouched_clear (w : Worker) (next : Resume) (d : Shared) :
    (w.clear next d).2.Untouched { d with cache := (d.cache.removeRule w.key).2 } := by
  rw [clear_eq]
  split
  · exact untouched_resume w next _
  · exact .refl _

/-- To start on an evaluation is to look at the stop signal. -/
theorem isUnderWay_start (h : (w.start root e d).1.phase.isUnderWay = true) :
    w.handle.isStopped root = false := by
  unfold start at h
  split at h
  next => cases h
  next hgoes => exact Bool.eq_false_iff.2 hgoes

theorem isApplying_start (w : Worker) (e : Evaluation) (d : Shared) :
    (w.start root e d).1.phase.isApplying = false := by
  unfold start
  split
  · rfl
  · rfl

theorem batches_start (w : Worker) (e : Evaluation) (d : Shared) :
    (w.start root e d).2.batches = d.batches := by
  unfold start
  split
  · rfl
  · exact (Shared.still_log d rfl).batches

theorem isCalm_resume (w : Worker) (next : Resume) (d : Shared) :
    (w.resume next d).1.phase.IsCalm := by
  cases next with
  | exit => exact ⟨rfl, rfl⟩
  | adopt version => exact ⟨rfl, rfl⟩
  | evaluate e => exact ⟨rfl, rfl⟩

theorem isCalm_closeAlerts (w : Worker) (removed : List Instance) (next : Resume) (d : Shared) :
    (w.closeAlerts removed next d).1.phase.IsCalm := by
  rw [closeAlerts_eq]
  split
  · exact isCalm_resume w next d
  · exact ⟨rfl, rfl⟩

theorem isCalm_clear (w : Worker) (next : Resume) (d : Shared) :
    (w.clear next d).1.phase.IsCalm := by
  rw [clear_eq]
  split
  · exact isCalm_resume w next _
  · exact ⟨rfl, rfl⟩

theorem batches_clear (w : Worker) (next : Resume) (d : Shared) :
    (w.clear next d).2.batches = d.batches := by
  rw [clear_eq]
  split
  · exact batches_resume w next _
  · rfl

/-- What a step does to what is shared. -/
inductive Effect (root : Option StopReason) (w : Worker) (d : Shared) :
    Worker × Shared → Prop where
  /-- It goes on, gives up or leaves. Only a look that reads no stop lets an evaluator go on. -/
  | passes {r : Worker × Shared} (hd : r.2.Untouched d) (hsent : r.2.batches = d.batches)
      (hw : w.phase.isApplying = false) (hw' : r.1.phase.isApplying = false)
      (hcalls : r.1.phase.isUnderWay = true →
        w.phase.isUnderWay = true ∧ r.1.phase.called? = w.phase.called? ∨
          w.handle.isStopped root = false) : Effect root w d r
  | clears (hidle : w.phase = .idle) (handle : Handle) (hkey : handle.key = w.handle.key)
      (next : Resume) : Effect root w d (({ w with handle } : Worker).clear next d)
  /-- The last row of the rule is gone. -/
  | closes {d' : Shared} {erasure : Erasure} {next : Resume}
      (hphase : w.phase = .erasing erasure next)
      (hd : d'.Untouched d) (hstill : d'.Still d) :
      Effect root w d (w.closeAlerts erasure.removed next d')
  | concludes {job : Job} (hcalled : w.phase.called? = some job.evaluation)
      (hworks : w.phase.isUnderWay = true) (vs : List Verdict) (failed : Bool) :
      Effect root w d (w.conclude job vs failed d)
  | absorbs {job : Job} {vs : List Verdict} (hphase : w.phase = .concluded job vs)
      (hgoes : w.handle.isStopped root = false) : Effect root w d (w.absorb job vs d)
  | evicts {d' : Shared} {job : Job} {processed : List Instance} {eviction rest : Eviction}
      (hphase : w.phase = .evicting job processed eviction) (hd : d'.Untouched d) :
      Effect root w d ({ w with phase := .evicting job processed rest }, d')
  | notifies {d' : Shared} {job : Job} {processed : List Instance} {eviction : Eviction}
      (hphase : w.phase = .evicting job processed eviction) (hd : d'.Untouched d) :
      Effect root w d (w.notify job processed d')
  | completes {job : Job} (hphase : w.phase = .sending job) : Effect root w d (w.complete job d)

theorem effect_of_calm (hd : r.2.Untouched d) (hsent : r.2.batches = d.batches)
    (hw : w.phase.isApplying = false) (hw' : r.1.phase.IsCalm) : Effect root w d r :=
  .passes hd hsent hw hw'.isApplying fun hcalls => nomatch hw'.isUnderWay.symm.trans hcalls

theorem effect_look (hidle : w.phase = .idle) (h : Look root w d r) : Effect root w d r := by
  have hcalm : w.phase.IsCalm := by
    rw [hidle]
    exact ⟨rfl, rfl⟩
  cases h with
  | @stop reason _ =>
      cases reason with
      | ruleDeleted => exact .clears hidle w.handle rfl .exit
      | shutdown =>
          show Effect root w d (w.resume .exit d)
          exact effect_of_calm (untouched_resume w .exit d) (batches_resume w .exit d)
            hcalm.isApplying (isCalm_resume w .exit d)
  | update =>
      unfold onUpdate
      split
      · exact effect_of_calm (.refl d) rfl hcalm.isApplying hcalm
      split
      · exact .clears hidle w.handle.withoutUpdate rfl _
      · exact effect_of_calm (.refl d) rfl hcalm.isApplying hcalm
  | noUpdate => exact effect_of_calm (.refl d) rfl hcalm.isApplying hcalm
  | @evaluation e _ =>
      unfold onEvaluation
      split
      · exact .clears hidle (w.handle.withoutEvaluation true) rfl _
      · exact effect_of_calm (.refl d) rfl hcalm.isApplying ⟨rfl, rfl⟩
  | noEvaluation => exact effect_of_calm (.refl d) rfl hcalm.isApplying hcalm

theorem effect_retry {job : Job} (hphase : w.phase = .building job ∨ w.phase = .evaluating job)
    (hworks : job.suspended = false) (error : EngineError) (d : Shared) :
    Effect root w d (w.retry job error d) := by
  have hcalled := Phase.called?_of_busy hphase
  have hunder := Phase.isUnderWay_of_busy hphase hworks
  have happlying := Phase.isApplying_of_called hcalled
  unfold retry
  dsimp only
  split
  · exact .passes (Shared.untouched_log d rfl) (Shared.still_log d rfl).batches happlying rfl
      fun _ => Or.inl ⟨hunder, hcalled.symm⟩
  · have hlast : w.phase.called? = some { job with failures := job.failures + 1 }.evaluation :=
      hcalled
    exact .concludes hlast hunder _ true

/-- **What a step does.** -/
theorem effect_step (h : w.step? root input d = some r) : Effect root w d r := by
  by_cases hidle : w.phase = .idle
  · exact effect_look hidle (look_of_wake (wake?_of_idle hidle h))
  cases advances_step hidle h with
  | @erases erasure next which ok hphase =>
      exact effect_of_calm (Shared.untouched_erasureAnswer erasure which ok d)
        (Shared.still_erasureAnswer erasure which ok d).batches (by rw [hphase]; rfl) ⟨rfl, rfl⟩
  | @closes erasure next which ok hphase =>
      rw [Erasure.removed_answer]
      exact .closes hphase (Shared.untouched_erasureAnswer erasure which ok d)
        (Shared.still_erasureAnswer erasure which ok d)
  | @resumes next hphase =>
      exact effect_of_calm (untouched_resume w next d) (batches_resume w next d)
        (by rw [hphase]; rfl) (isCalm_resume w next d)
  | @starts e hphase =>
      exact .passes (untouched_start w e d) (batches_start w e d) (by rw [hphase]; rfl)
        (isApplying_start w e d) fun hcalls => Or.inr (isUnderWay_start hcalls)
  | cancels hphase =>
      exact effect_of_calm (.refl d) rfl
        (Phase.isApplying_of_called (Phase.called?_of_busy hphase)) ⟨rfl, rfl⟩
  | @pauses _ phase job hphase hcalled hgoes =>
      refine .passes (.refl d) rfl ?_ ?_ fun hcalls => Or.inr ?_
      · rw [hphase]
        rcases hcalled with rfl | rfl
        · rfl
        · rfl
      · rcases hcalled with rfl | rfl
        · rfl
        · rfl
      -- an evaluator that has come to wait is not under way
      · refine hgoes.resolve_left fun hworks => ?_
        rw [Phase.isUnderWay_of_called hcalled, hworks] at hcalls
        cases hcalls
  | builds hphase hworks =>
      refine .passes (.refl d) rfl (by rw [hphase]; rfl) rfl fun _ => Or.inl ⟨?_, ?_⟩
      · exact Phase.isUnderWay_of_busy (Or.inl hphase) hworks
      · rw [hphase]
        rfl
  | @concludes job vs hphase hworks =>
      exact .concludes (Phase.called?_of_busy (Or.inr hphase))
        (Phase.isUnderWay_of_busy (Or.inr hphase) hworks) vs false
  | @retries _ job error hphase hworks => exact effect_retry hphase hworks error d
  | withdraws hphase => exact effect_of_calm (.refl d) rfl (by rw [hphase]; rfl) ⟨rfl, rfl⟩
  | absorbs hphase hgoes => exact .absorbs hphase hgoes
  | @evicts _ _ eviction ok hphase =>
      exact .evicts hphase (Shared.untouched_evictionAnswer eviction ok d)
  | @notifies _ _ eviction ok hphase =>
      exact .notifies hphase (Shared.untouched_evictionAnswer eviction ok d)
  | completes hphase => exact .completes hphase

/-! ## Other rules -/

theorem ofRule_notify_of_ne {processed : List Instance} (h : ∀ i ∈ processed, i.ruleKey ≠ k)
    (w : Worker) (job : Job) (d : Shared) :
    (w.notify job processed d).2.cache.ofRule k = d.cache.ofRule k := by
  unfold notify
  split
  · rfl
  · rfl
  · rename_i sent _ hdue
    refine Cache.ofRule_markSent_of_ne fun i hi => h i ?_
    rw [Alert.eq_filter_of_due? hdue] at hi
    exact (List.mem_filter.1 hi).1

/-- What a routine processed is of its rule. -/
structure Filed (w : Worker) (d : Shared) : Prop where
  named : d.cache.Named
  concluded : ∀ job vs, w.phase = .concluded job vs → job.evaluation.rule.key = w.key
  processed : ∀ i ∈ w.phase.processed, i.ruleKey = w.key

theorem named_notify (h : d.cache.Named) (w : Worker) (job : Job) (processed : List Instance) :
    (w.notify job processed d).2.cache.Named ∧
      (w.notify job processed d).1.phase.processed = [] := by
  unfold notify
  split
  · exact ⟨h, rfl⟩
  · exact ⟨h, rfl⟩
  · exact ⟨Cache.named_markSent h _, rfl⟩

/-- What comes of verdicts: a crash, or instances of the rule to be evicted or sent. -/
theorem absorb_cases (w : Worker) (job : Job) (vs : List Verdict) (d : Shared) :
    ∃ extra, ∃ d₁ : Shared,
      d₁.Untouched { d with
        cache := (d.cache.round d.state d.clock job.evaluation.rule vs extra).2 } ∧
      (w.absorb job vs d = ({ w with phase := .crashed }, d₁) ∨
        ∃ rd, (d.cache.round d.state d.clock job.evaluation.rule vs extra).1 = some rd ∧
          ((∃ eviction, w.absorb job vs d =
              ({ w with phase := .evicting job rd.processed eviction }, d₁)) ∨
            w.absorb job vs d = w.notify job rd.processed d₁)) := by
  refine ⟨job.evaluation.rule.reservedLabels
    (if d.scheduler.disableFolderLabel then none else some job.evaluation.folder), _,
    Shared.untouched_round d job.evaluation.rule vs _, ?_⟩
  unfold absorb
  dsimp only
  generalize job.evaluation.rule.reservedLabels _ = extra
  unfold Shared.round
  cases hround : d.cache.round d.state d.clock job.evaluation.rule vs extra with
  | mk answer c =>
  cases answer with
  | none => exact Or.inl rfl
  | some rd =>
      refine Or.inr ⟨rd, rfl, ?_⟩
      dsimp only
      split
      · exact Or.inr rfl
      · exact Or.inl ⟨_, rfl⟩

/-- **A step leaves the other rules their instances.** -/
theorem ofRule_step_of_ne (hk : k ≠ w.key) (hf : w.Filed d) (h : w.step? root input d = some r) :
    r.2.cache.ofRule k = d.cache.ofRule k := by
  have hother : ∀ {is : List Instance}, (∀ i ∈ is, i.ruleKey = w.key) → ∀ i ∈ is, i.ruleKey ≠ k :=
    fun his i hi heq => hk (heq.symm.trans (his i hi))
  cases effect_step h with
  | passes hd => rw [hd.cache]
  | clears _ handle hkey next =>
      rw [(untouched_clear _ next d).cache]
      exact Cache.ofRule_setRule_of_ne d.cache ∅ fun heq => hk (heq.trans hkey)
  | closes _ hd => rw [(untouched_closeAlerts w _ _ _).cache, hd.cache]
  | concludes => rfl
  | @absorbs job vs hphase _ =>
      have hrule := hf.concluded job vs hphase
      obtain ⟨extra, d₁, hd₁, hcases⟩ := absorb_cases w job vs d
      have hcache : d₁.cache.ofRule k = d.cache.ofRule k := by
        rw [hd₁.cache]
        exact Cache.ofRule_round_of_ne (hrule ▸ hk)
      rcases hcases with heq | ⟨rd, hrd, ⟨eviction, heq⟩ | heq⟩
      · rw [heq]
        exact hcache
      · rw [heq]
        exact hcache
      · rw [heq]
        refine (ofRule_notify_of_ne (hother fun i hi => ?_) w job d₁).trans hcache
        exact (Cache.ruleKey_of_round hf.named hrd i hi).trans hrule
  | evicts _ hd =>
      show _ = _
      exact congrArg (Cache.ofRule · k) hd.cache
  | @notifies d₁ job processed eviction hphase hd =>
      have hown := hf.processed
      rw [hphase] at hown
      refine (ofRule_notify_of_ne (hother hown) w job d₁).trans ?_
      rw [hd.cache]
  | completes => rfl

/-- A step files instances under their names, and processes instances of its rule. -/
theorem named_step (hf : w.Filed d) (h : w.step? root input d = some r) :
    r.2.cache.Named ∧ ∀ i ∈ r.1.phase.processed, i.ruleKey = w.key := by
  have hnone : r.1.phase.processed = [] → ∀ i ∈ r.1.phase.processed, i.ruleKey = w.key := by
    intro hnone
    rw [hnone]
    exact List.forall_mem_nil _
  cases effect_step h with
  | passes hd _ _ hw' =>
      exact ⟨hd.cache ▸ hf.named, hnone (Phase.processed_of_not_isApplying hw')⟩
  | clears _ handle _ next =>
      refine ⟨?_, hnone (Phase.processed_of_not_isApplying (isCalm_clear _ next d).isApplying)⟩
      rw [(untouched_clear _ next d).cache]
      exact Cache.named_removeRule hf.named _
  | closes _ hd =>
      refine ⟨?_, hnone (Phase.processed_of_not_isApplying (isCalm_closeAlerts w _ _ _).isApplying)⟩
      rw [(untouched_closeAlerts w _ _ _).cache, hd.cache]
      exact hf.named
  | concludes => exact ⟨hf.named, hnone rfl⟩
  | @absorbs job vs hphase _ =>
      obtain ⟨extra, d₁, hd₁, hcases⟩ := absorb_cases w job vs d
      have hnamed : d₁.cache.Named := by
        rw [hd₁.cache]
        exact (Cache.round_frame hf.named _ _ _ _ _).1
      rcases hcases with heq | ⟨rd, hrd, ⟨eviction, heq⟩ | heq⟩
      · rw [heq]
        exact ⟨hnamed, List.forall_mem_nil _⟩
      · rw [heq]
        refine ⟨hnamed, fun i hi => ?_⟩
        exact (Cache.ruleKey_of_round hf.named hrd i hi).trans (hf.concluded job vs hphase)
      · rw [heq]
        obtain ⟨hnamed', hprocessed⟩ := named_notify hnamed w job rd.processed
        rw [hprocessed]
        exact ⟨hnamed', List.forall_mem_nil _⟩
  | evicts hphase hd =>
      have hown := hf.processed
      rw [hphase] at hown
      exact ⟨hd.cache ▸ hf.named, hown⟩
  | @notifies d₁ job processed eviction _ hd =>
      exact (named_notify (d := d₁) (hd.cache ▸ hf.named) w job processed).imp_right hnone
  | completes => exact ⟨hf.named, hnone rfl⟩

end Worker

/-! ## The engine -/

namespace System

variable {s t : System} {n : Nat} {w : Worker} {a : Action} {as : List Action} {k : RuleKey}

/-- Instances are filed under their names, and what routines processed is of their rules. -/
structure Filed (s : System) : Prop where
  named : s.shared.cache.Named
  processed : ∀ {n : Nat} {w : Worker}, s.registry.entries[n]? = some w →
    ∀ i ∈ w.phase.processed, i.ruleKey = w.key

theorem Filed.worker (hf : s.Filed) (hs : s.Orderly) (hw : s.registry.entries[n]? = some w) :
    w.Filed s.shared :=
  ⟨hf.named, fun _ _ hphase => hs.key_of_concluded hw hphase, hf.processed hw⟩

theorem filed_step (hf : s.Filed) (hs : s.Orderly) (ha : a.IsListed) (h : s.step? a = some t) :
    t.Filed := by
  have hstays : s.Stays t → t.Filed := by
    intro hst
    refine ⟨hst.cache ▸ hf.named, fun {n w'} hw' i hi => ?_⟩
    rcases hst.entry hw' with ⟨w, hw, hstay⟩ | ⟨q, rfl⟩
    · rw [hstay.phase] at hi
      rw [hstay.key]
      exact hf.processed hw i hi
    · exact absurd hi List.not_mem_nil
  cases a with
  | worker m input =>
      obtain ⟨w, w', d, hw, hstep, rfl, hw', hothers⟩ := stepWorker_cases h
      obtain ⟨hnamed, hprocessed⟩ := Worker.named_step (hf.worker hs hw) hstep
      refine ⟨hnamed, fun {n v} hv i hi => ?_⟩
      by_cases hm : m = n
      · subst hm
        obtain rfl := Option.some.inj (hv.symm.trans hw')
        exact (hprocessed i hi).trans (Worker.frame_of_step hstep).1.1.symm
      · exact hf.processed ((hothers n hm).symm.trans hv) i hi
  | _ => exact hstays (stays_step hs.tracks ha h nofun)

/-- An engine that starts on these data, warmed up or empty. -/
def on (d : Shared) : System := { shared := d }

theorem reached_on (d : Shared) : (on d).Reached :=
  .manage (.new d.scheduler d.state d.clock) d

theorem filed_on {d : Shared} (hd : d.cache.Named) : (on d).Filed :=
  ⟨hd, fun hw => absurd hw nofun⟩

/-- **Filing.** It holds all the time if the instances at the start have their names. -/
theorem filed_run (hf : s.Filed) (hs : s.Reached) (ha : ∀ a ∈ as, a.IsListed)
    (h : s.run? as = some t) : t.Filed := by
  induction as using List.reverseRecOn generalizing t with
  | nil =>
      cases h
      exact hf
  | append_singleton as a ih =>
      rw [List.forall_mem_append, List.forall_mem_singleton] at ha
      rw [run?_snoc] at h
      obtain ⟨u, hu, hstep⟩ := Option.bind_eq_some_iff.1 h
      exact filed_step (ih ha.1 hu) (hs.run ha.1 hu).orderly ha.2 hstep

/-- What is not done by a routine of the rule leaves the rule its instances. -/
theorem ofRule_step_of_other (hf : s.Filed) (hs : s.Orderly) (ha : a.IsListed)
    (h : s.step? a = some t)
    (hother : ∀ n input w, a = .worker n input → s.registry.entries[n]? = some w → w.key ≠ k) :
    t.shared.cache.ofRule k = s.shared.cache.ofRule k := by
  cases a with
  | worker m input =>
      obtain ⟨w, w', d, hw, hstep, rfl, -⟩ := stepWorker_cases h
      have hk : k ≠ w.key := fun heq => hother m input w rfl hw heq.symm
      exact Worker.ofRule_step_of_ne hk (hf.worker hs hw) hstep
  | _ => rw [(stays_step hs.tracks ha h nofun).cache]

end System

end Vigil
