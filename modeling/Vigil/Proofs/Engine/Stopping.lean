import Vigil.Proofs.Engine.Effects

/-!
# What a stop does to an evaluation

A routine that is told to stop before verdicts are being applied withholds them: from then on
it changes no instance but to clear its rule, and sends no alert but to close those it cleared
(`Worker.Turn.Isolates`). Nor does it count an evaluation (`Worker.withholds_of_step`), unless an
evaluator is under way as the stop comes and finishes before the next look
(`Worker.isolates_of_step`). It leaves on the first look that reads a reason to stop, and reads
no other (`Worker.Course`). If that is the deletion of its rule, the instances are gone. If it
is the stop of the engine, they are those that the last evaluation or the last clearing left
(`Worker.LeftBy`). This holds of every run in which no other routine of the rule is live
(`System.stop_isolation`).
-/

namespace Vigil

theorem Handle.isStopped_iff {h : Handle} {root : Option StopReason} :
    h.isStopped root = true ↔ h.stop ≠ none ∨ root ≠ none := by
  unfold isStopped reason
  cases h.stop with
  | none => simp [Option.isSome_iff_ne_none]
  | some r => simp

namespace Worker

variable {root : Option StopReason} {w w' : Worker} {d : Shared} {r : Worker × Shared}
  {k : RuleKey} {input : Input}

/-! ## One turn -/

namespace Turn

/-- The reason to stop that an idle routine reads. -/
def stop? (t : Turn) : Option StopReason :=
  match t.worker.phase with
  | .idle => t.worker.handle.reason t.root
  | _ => none

/-- The turn clears the instances of the rule. -/
def Resets (t : Turn) : Prop :=
  t.worker.phase = .idle ∧ ∃ (handle : Handle) (next : Resume),
    handle.key = t.worker.handle.key ∧
      (t.worker', t.shared') = ({ t.worker with handle } : Worker).clear next t.shared

/-- The turn reports its evaluation as applied. -/
def Completes (t : Turn) : Prop := t.shared'.reports ≠ t.shared.reports

/-- An evaluation or a clearing is over as far as the cache goes. -/
def Settles (t : Turn) : Prop := t.Completes ∨ t.Resets

/-- The turn reports no evaluation. It changes instances only as it clears a rule that was
deleted, and sends only the batch that closes what was cleared. -/
structure Isolates (t : Turn) : Prop where
  reports : t.shared'.reports = t.shared.reports
  cache : t.shared'.cache = t.shared.cache ∨ t.Resets ∧ t.stop? = some .ruleDeleted
  sent : t.sent = [] ∨ ∃ erasure next, t.worker.phase = .erasing erasure next ∧
    t.sent = t.shared.closings t.worker.key erasure.removed

/-- Nor does it count one. -/
structure Withholds (t : Turn) : Prop extends t.Isolates where
  metrics : t.shared'.metrics = t.shared.metrics

/-- The turn takes the outcome of evaluation `e`, and counts it. -/
def Concludes (t : Turn) (e : Evaluation) : Prop :=
  ∃ job vs failed, job.evaluation = e ∧
    (t.worker', t.shared') = t.worker.conclude job vs failed t.shared

variable {t : Turn}

theorem stop?_of_idle (hidle : t.worker.phase = .idle) :
    t.stop? = t.worker.handle.reason t.root := by
  rw [stop?, hidle]

theorem stop?_of_not_idle (hidle : t.worker.phase ≠ .idle) : t.stop? = none := by
  unfold stop?
  split
  · rename_i hphase
    exact absurd hphase hidle
  · rfl

/-- What the step did, and what is left of the routine and the data. -/
theorem IsStep.effect (h : t.IsStep) :
    ∃ r, t.worker' = r.1 ∧ t.shared' = r.2 ∧ Effect t.root t.worker t.shared r :=
  ⟨(t.worker', t.shared'), rfl, rfl, effect_step h⟩

theorem sent_eq_nil (h : t.shared'.batches = t.shared.batches) : t.sent = [] :=
  sent_eq (h.trans (List.append_nil _).symm)

theorem ofRule_of_resets (h : t.Resets) : t.shared'.cache.ofRule t.worker.key = ∅ := by
  obtain ⟨-, handle, next, hkey, heq⟩ := h
  have hshared : t.shared' = (({ t.worker with handle } : Worker).clear next t.shared).2 :=
    congrArg Prod.snd heq
  have hsame : ({ t.worker with handle } : Worker).key = t.worker.key := hkey
  rw [hshared, (untouched_clear _ next t.shared).cache, hsame]
  exact Cache.ofRule_setRule t.shared.cache t.worker.key ∅

end Turn

/-- A look that reads a reason to stop does what the reason asks. -/
theorem wake_of_reason {reason : StopReason} (hr : w.handle.reason root = some reason)
    (h : w.wake? root d = some r) : r = w.onStop reason d := by
  unfold wake? at h
  rw [hr] at h
  exact (Option.some.inj h).symm

/-- A look that reads none does not make the routine leave. -/
theorem isLeaving_wake (hidle : w.phase = .idle) (hr : w.handle.reason root = none)
    (h : w.wake? root d = some r) : r.1.phase.isLeaving = false := by
  have hstay : w.phase.isLeaving = false := by
    rw [hidle]
    rfl
  cases look_of_wake h with
  | stop hr' => cases hr.symm.trans hr'
  | @update version _ =>
      unfold onUpdate
      split
      · exact hstay
      split
      · exact (spares_clear (k := w.key) _ (.adopt version) d).leaving
      · exact hstay
  | noUpdate => exact hstay
  | @evaluation e _ =>
      unfold onEvaluation
      split
      · exact (spares_clear (k := w.key) _ (.evaluate e) d).leaving
      · rfl
  | noEvaluation => exact hstay

/-- Away from its mailboxes a routine neither takes up leaving nor gives it up. -/
theorem isLeaving_step (hidle : w.phase ≠ .idle) (h : w.step? root input d = some r) :
    r.1.phase.isLeaving = w.phase.isLeaving := by
  -- seen from a rule that no verdicts are in for
  obtain ⟨k, hk⟩ : ∃ k : RuleKey, ∀ e, w.phase.upcoming? = some e → k ≠ e.rule.key := by
    cases w.phase.upcoming? with
    | none => exact ⟨⟨0, ""⟩, fun _ he => by cases he⟩
    | some e =>
        refine ⟨⟨e.rule.org + 1, ""⟩, fun e' he hkey => ?_⟩
        obtain rfl := Option.some.inj he
        have horg : e.rule.org + 1 = e.rule.org := congrArg RuleKey.org hkey
        omega
  refine (spares_step hidle (fun job vs hphase _ => hk job.evaluation ?_) h).leaving
  rw [hphase]
  rfl

/-- A look that reads a reason to stop withholds whatever is in the mailboxes. -/
theorem withholds_of_look {t : Turn} (ht : t.IsStep) (hidle : t.worker.phase = .idle)
    {reason : StopReason} (hreason : t.worker.handle.reason t.root = some reason) :
    t.Withholds ∧ t.worker'.phase.IsCalm := by
  have hread : t.stop? = some reason := (Turn.stop?_of_idle hidle).trans hreason
  have heq := wake_of_reason hreason (wake?_of_idle hidle ht)
  have hw' := congrArg Prod.fst heq
  have hd' := congrArg Prod.snd heq
  dsimp only at hw' hd'
  cases reason with
  | ruleDeleted =>
      have hclear : (t.worker.clear .exit t.shared).2.Untouched _ :=
        untouched_clear t.worker .exit t.shared
      refine ⟨⟨⟨hd' ▸ hclear.reports, Or.inr ⟨⟨hidle, t.worker.handle, .exit, rfl, heq⟩, hread⟩,
        Or.inl ?_⟩, hd' ▸ hclear.metrics⟩, ?_⟩
      · exact Turn.sent_eq_nil (hd' ▸ batches_clear t.worker .exit t.shared)
      · exact hw' ▸ isCalm_clear t.worker .exit t.shared
  | shutdown =>
      have hresume : (t.worker.resume .exit t.shared).2.Untouched t.shared :=
        untouched_resume t.worker .exit t.shared
      have hsent : (t.worker.resume .exit t.shared).2.batches = t.shared.batches :=
        batches_resume t.worker .exit t.shared
      refine ⟨⟨⟨hd' ▸ hresume.reports, Or.inl (hd' ▸ hresume.cache),
        Or.inl (Turn.sent_eq_nil (hd' ▸ hsent))⟩, hd' ▸ hresume.metrics⟩, ?_⟩
      exact hw' ▸ isCalm_resume t.worker .exit t.shared

/-- A turn that leaves instances, counts and reports alone and sends nothing. -/
theorem Turn.withholds_of_untouched {t : Turn} (hd : t.shared'.Untouched t.shared)
    (hsent : t.shared'.batches = t.shared.batches) : t.Withholds :=
  ⟨⟨hd.reports, Or.inl hd.cache, Or.inl (Turn.sent_eq_nil hsent)⟩, hd.metrics⟩

/-- Away from its mailboxes a stopped routine whose evaluator is not under way gives its
evaluation up, or goes on clearing. -/
theorem withholds_away {t : Turn} (ht : t.IsStep) (hidle : t.worker.phase ≠ .idle)
    (hstop : t.worker.handle.isStopped t.root = true) (hcalm : t.worker.phase.IsCalm) :
    t.Withholds ∧ t.worker'.phase.IsCalm := by
  have happlying := hcalm.isApplying
  obtain ⟨r, hw', hd', heffect⟩ := ht.effect
  cases heffect with
  | passes hd hsent _ happlying' hcalls =>
      refine ⟨Turn.withholds_of_untouched (hd' ▸ hd) (hd' ▸ hsent), ⟨?_, hw' ▸ happlying'⟩⟩
      rw [hw', ← Bool.not_eq_true]
      intro hunder
      rcases hcalls hunder with ⟨hbefore, -⟩ | hgoes
      · cases hcalm.isUnderWay.symm.trans hbefore
      · cases hgoes.symm.trans hstop
  | clears hidle' => exact absurd hidle' hidle
  | @closes d erasure next herasing hd hstill =>
      have hclose : (t.worker.closeAlerts erasure.removed next d).2.Untouched t.shared :=
        (untouched_closeAlerts t.worker erasure.removed next d).trans hd
      refine ⟨⟨⟨hd' ▸ hclose.reports, Or.inl (hd' ▸ hclose.cache),
        Or.inr ⟨erasure, next, herasing, Turn.sent_eq ?_⟩⟩, hd' ▸ hclose.metrics⟩, ?_⟩
      · rw [hd', batches_closeAlerts, hstill.batches, hstill.closings_eq]
      · exact hw' ▸ isCalm_closeAlerts t.worker erasure.removed next d
  | concludes _ hunder => cases hcalm.isUnderWay.symm.trans hunder
  | absorbs _ hgoes => exact absurd (hgoes.symm.trans hstop) nofun
  | evicts hphase =>
      rw [hphase] at happlying
      cases happlying
  | notifies hphase =>
      rw [hphase] at happlying
      cases happlying
  | completes hphase =>
      rw [hphase] at happlying
      cases happlying

/-- **A routine that was stopped in time.** Each of its turns withholds the evaluation, and
none takes up another. -/
theorem withholds_of_step {t : Turn} (ht : t.IsStep)
    (hstop : t.worker.handle.isStopped t.root = true) (hcalm : t.worker.phase.IsCalm) :
    t.Withholds ∧ t.worker'.phase.IsCalm := by
  by_cases hidle : t.worker.phase = .idle
  · obtain ⟨reason, hreason⟩ := Option.isSome_iff_exists.1 hstop
    exact withholds_of_look ht hidle hreason
  · exact withholds_away ht hidle hstop hcalm

/-- **A routine that was stopped while its evaluator is under way.** The evaluator is still
under way after a turn, or has had to wait, or is done. Only then its evaluation is counted,
and that is all that comes of it. -/
theorem isolates_of_step {t : Turn} (ht : t.IsStep)
    (hstop : t.worker.handle.isStopped t.root = true)
    (hunder : t.worker.phase.isUnderWay = true) :
    t.Withholds ∧ (t.worker'.phase.IsCalm ∨ t.worker'.phase.isUnderWay = true ∧
        t.worker'.phase.called? = t.worker.phase.called?) ∨
      t.Isolates ∧ t.worker'.phase.IsCalm ∧
        ∃ e, t.worker.phase.called? = some e ∧ t.Concludes e := by
  have hother : ∀ {p : Phase}, t.worker.phase = p → p.isUnderWay = true := by
    intro p hp
    rw [← hp]
    exact hunder
  obtain ⟨r, hw', hd', heffect⟩ := ht.effect
  cases heffect with
  | passes hd hsent _ happlying' hcalls =>
      refine Or.inl ⟨Turn.withholds_of_untouched (hd' ▸ hd) (hd' ▸ hsent), ?_⟩
      rw [hw']
      cases hunder' : r.1.phase.isUnderWay with
      | false => exact Or.inl ⟨hunder', happlying'⟩
      | true =>
          rcases hcalls hunder' with ⟨-, hcalled⟩ | hgoes
          · exact Or.inr ⟨rfl, hcalled⟩
          · cases hgoes.symm.trans hstop
  | clears hidle => cases hother hidle
  | closes hphase => cases hother hphase
  | @concludes job hcalled _ vs failed =>
      have hturn : (t.worker', t.shared') = t.worker.conclude job vs failed t.shared :=
        Prod.ext hw' hd'
      refine Or.inr ⟨⟨hd' ▸ rfl, Or.inl (hd' ▸ rfl), Or.inl (Turn.sent_eq_nil (hd' ▸ rfl))⟩,
        hw' ▸ ⟨rfl, rfl⟩, job.evaluation, hcalled, job, vs, failed, rfl, hturn⟩
  | absorbs hphase => cases hother hphase
  | evicts hphase => cases hother hphase
  | notifies hphase => cases hother hphase
  | completes hphase => cases hother hphase

/-- What a routine does after a stop that found it in phase `p`: the turns `poll` of an
evaluator that was under way, up to the point where it has had to wait or is done, and then
others. All of them withhold the evaluation, but for the last turn of the evaluator, which may
take its outcome and count it. -/
def Isolated (p : Phase) (ts : List Turn) : Prop :=
  ∃ poll rest, ts = poll ++ rest ∧ (p.isUnderWay = false → poll = []) ∧
    (∀ x ∈ poll, x.worker.phase.isUnderWay = true ∧ x.worker.phase.called? = p.called?) ∧
    (∀ x ∈ poll.getLast?, x.Withholds ∨
      x.Isolates ∧ ∃ e, p.called? = some e ∧ x.Concludes e) ∧
    ∀ x ∈ poll.dropLast ++ rest, x.Withholds

theorem isolated_of_withholds {p : Phase} {ts : List Turn} (h : ∀ x ∈ ts, x.Withholds) :
    Isolated p ts := by
  refine ⟨[], ts, rfl, fun _ => rfl, List.forall_mem_nil _, fun x hx => ?_, h⟩
  rw [List.getLast?_nil] at hx
  exact absurd hx (Option.not_mem_none x)

theorem Isolated.withholds {p : Phase} {ts : List Turn} (h : Isolated p ts)
    (hover : p.isUnderWay = false) : ∀ x ∈ ts, x.Withholds := by
  obtain ⟨poll, rest, rfl, hnone, -, -, hrest⟩ := h
  rwa [hnone hover] at hrest ⊢

/-- The last turn of an evaluator under way. -/
theorem isolated_cons_of_calm {t : Turn} {ts : List Turn}
    (hunder : t.worker.phase.isUnderWay = true)
    (ht : t.Withholds ∨ t.Isolates ∧ ∃ e, t.worker.phase.called? = some e ∧ t.Concludes e)
    (hts : ∀ x ∈ ts, x.Withholds) : Isolated t.worker.phase (t :: ts) := by
  refine ⟨[t], ts, rfl, fun hover => ?_, ?_, ?_, hts⟩
  · cases hunder.symm.trans hover
  · exact List.forall_mem_singleton.2 ⟨hunder, rfl⟩
  · intro x hx
    obtain rfl := Option.mem_some_iff.1 hx
    exact ht

/-- A turn after which the evaluator is still under way. -/
theorem Isolated.cons {t : Turn} {ts : List Turn} (h : Isolated t.worker'.phase ts)
    (hunder : t.worker.phase.isUnderWay = true) (ht : t.Withholds)
    (hcalled : t.worker'.phase.called? = t.worker.phase.called?) :
    Isolated t.worker.phase (t :: ts) := by
  obtain ⟨poll, rest, rfl, -, hpoll, hlast, hrest⟩ := h
  rw [hcalled] at hpoll hlast
  refine ⟨t :: poll, rest, rfl, fun hover => ?_, List.forall_mem_cons.2 ⟨⟨hunder, rfl⟩, hpoll⟩,
    ?_, ?_⟩
  · cases hunder.symm.trans hover
  · cases poll with
    | nil =>
        intro x hx
        obtain rfl := Option.mem_some_iff.1 hx
        exact Or.inl ht
    | cons y poll => exact hlast
  · cases poll with
    | nil => exact hrest
    | cons y poll => exact List.forall_mem_cons.2 ⟨ht, hrest⟩

/-! ## What the last evaluation or clearing left -/

theorem reports_notify (w : Worker) (job : Job) (processed : List Instance) (d : Shared)
    (h : (w.notify job processed d).1.phase.isApplying = false) :
    (w.notify job processed d).2.reports = d.reports ++ [(w.key, job.evaluation.scheduledAt)] := by
  unfold notify at h ⊢
  split at h
  · cases h
  · exact d.reports_log _
  · cases h

theorem reports_absorb (w : Worker) (job : Job) (vs : List Verdict) (d : Shared)
    (h : (w.absorb job vs d).1.phase.isApplying = false) :
    (w.absorb job vs d).2.reports = d.reports ++ [(w.key, job.evaluation.scheduledAt)] := by
  obtain ⟨extra, d₁, hd₁, heq | ⟨rd, -, ⟨eviction, heq⟩ | heq⟩⟩ := absorb_cases w job vs d
  · rw [heq] at h
    cases h
  · rw [heq] at h
    cases h
  · rw [heq] at h ⊢
    rw [reports_notify w job rd.processed d₁ h, hd₁.reports]
    rfl

/-- Verdicts that are applied are reported, and nothing else but a clearing changes
instances. -/
theorem settles_or_same {t : Turn} (ht : t.IsStep) (hphase : t.worker'.phase.isApplying = false) :
    t.Settles ∨ t.worker.phase.isApplying = false ∧ t.shared'.cache = t.shared.cache := by
  have hcompletes : ∀ job : Job, t.shared'.reports =
      t.shared.reports ++ [(t.worker.key, job.evaluation.scheduledAt)] → t.Settles := by
    intro job hreports
    refine Or.inl fun hsame => ?_
    rw [hreports] at hsame
    simp at hsame
  obtain ⟨r, hw', hd', heffect⟩ := ht.effect
  rw [hw'] at hphase
  cases heffect with
  | passes hd _ hw _ => exact Or.inr ⟨hw, hd' ▸ hd.cache⟩
  | clears hidle handle hkey next =>
      exact Or.inl (Or.inr ⟨hidle, handle, next, hkey, Prod.ext hw' hd'⟩)
  | @closes d erasure next herasing hd _ =>
      have hclose : (t.worker.closeAlerts erasure.removed next d).2.Untouched t.shared :=
        (untouched_closeAlerts t.worker erasure.removed next d).trans hd
      exact Or.inr ⟨by rw [herasing]; rfl, hd' ▸ hclose.cache⟩
  | @concludes job hcalled _ vs failed =>
      exact Or.inr ⟨Phase.isApplying_of_called hcalled, by rw [hd']; rfl⟩
  | @absorbs job vs _ _ =>
      exact Or.inl (hcompletes job (hd' ▸ reports_absorb t.worker job vs _ hphase))
  | evicts => cases hphase
  | @notifies d job processed eviction _ hd =>
      refine Or.inl (hcompletes job ?_)
      rw [hd', reports_notify t.worker job processed d hphase, hd.reports]
  | @completes job _ =>
      refine Or.inl (hcompletes job ?_)
      rw [hd']
      exact t.shared.reports_log _

/-- In `c` rule `k` has the instances that the last of the turns left that reports an
evaluation or clears the rule. If there was none it has those that it has in `c₀`. -/
def LeftBy (k : RuleKey) (c₀ : Cache) (ts : List Turn) (c : Cache) : Prop :=
  (∃ before t after, ts = before ++ t :: after ∧ t.Settles ∧ (∀ u ∈ after, ¬ u.Settles) ∧
    c.ofRule k = t.shared'.cache.ofRule k) ∨
  (∀ t ∈ ts, ¬ t.Settles) ∧ c.ofRule k = c₀.ofRule k

theorem LeftBy.congr {c₀ c c' : Cache} {ts : List Turn} (h : LeftBy k c₀ ts c)
    (hc : c'.ofRule k = c.ofRule k) : LeftBy k c₀ ts c' := by
  rcases h with ⟨before, t, after, hts, ht, hafter, hleft⟩ | ⟨hnone, hleft⟩
  · exact Or.inl ⟨before, t, after, hts, ht, hafter, hc.trans hleft⟩
  · exact Or.inr ⟨hnone, hc.trans hleft⟩

theorem leftBy_snoc {c₀ : Cache} {ts : List Turn} {t : Turn} (ht : t.Settles) :
    LeftBy k c₀ (ts ++ [t]) t.shared'.cache :=
  Or.inl ⟨ts, t, [], rfl, ht, List.forall_mem_nil _, rfl⟩

theorem LeftBy.snoc {c₀ c : Cache} {ts : List Turn} (h : LeftBy k c₀ ts c) {t : Turn}
    (ht : ¬ t.Settles) : LeftBy k c₀ (ts ++ [t]) c := by
  rcases h with ⟨before, u, after, hts, hu, hafter, hleft⟩ | ⟨hnone, hleft⟩
  · refine Or.inl ⟨before, u, after ++ [t], ?_, hu, ?_, hleft⟩
    · rw [hts, List.append_assoc, List.cons_append]
    · exact List.forall_mem_append.2 ⟨hafter, List.forall_mem_singleton.2 ht⟩
  · exact Or.inr ⟨List.forall_mem_append.2 ⟨hnone, List.forall_mem_singleton.2 ht⟩, hleft⟩

/-! ## From the start to the exit -/

/-- Where a routine of rule `k` has come by the turns `ts`, with the cache `c₀` at its start
and `c` now. -/
structure Course (k : RuleKey) (c₀ : Cache) (ts : List Turn) (w : Worker) (c : Cache) :
    Prop where
  key : w.key = k
  left : w.phase.isApplying = false → LeftBy k c₀ ts c
  stays : w.phase.isLeaving = false → ts.filterMap Turn.stop? = []
  leaves : w.phase.isLeaving = true →
    ts.filterMap Turn.stop? = [.ruleDeleted] ∧ c.ofRule k = ∅ ∨
      ts.filterMap Turn.stop? = [.shutdown] ∧ w.phase = .exited

theorem course_new (k : RuleKey) (c₀ : Cache) : Course k c₀ [] (new k) c₀ :=
  ⟨rfl, fun _ => Or.inr ⟨List.forall_mem_nil _, rfl⟩, fun _ => rfl, nofun⟩

theorem Course.abides {c₀ c c' : Cache} {ts : List Turn} (h : Course k c₀ ts w c)
    (hw : w.Abides w') (hc : c'.ofRule k = c.ofRule k) : Course k c₀ ts w' c' := by
  refine ⟨hw.key.trans h.key, ?_, ?_, ?_⟩
  · rw [hw.phase]
    exact fun hphase => (h.left hphase).congr hc
  · rw [hw.phase]
    exact h.stays
  · rw [hw.phase, hc]
    exact h.leaves

theorem filterMap_stop?_snoc (ts : List Turn) (t : Turn) :
    (ts ++ [t]).filterMap Turn.stop? = ts.filterMap Turn.stop? ++ t.stop?.toList := by
  rw [List.filterMap_append, List.filterMap_cons]
  cases t.stop? with
  | none => rfl
  | some reason => rfl

/-- On its way out a routine changes no instance. -/
theorem cache_of_leaving {t : Turn} (ht : t.IsStep) (hleaving : t.worker.phase.isLeaving = true) :
    t.shared'.cache = t.shared.cache := by
  obtain ⟨r, -, hd', heffect⟩ := ht.effect
  rw [hd']
  have hother : ∀ {p : Phase}, t.worker.phase = p → p.isLeaving = true := by
    intro p hp
    rw [← hp]
    exact hleaving
  cases heffect with
  | passes hd => exact hd.cache
  | clears hidle => cases hother hidle
  | @closes d erasure next _ hd =>
      exact ((untouched_closeAlerts t.worker erasure.removed next d).trans hd).cache
  | concludes => rfl
  | absorbs hphase => cases hother hphase
  | evicts hphase => cases hother hphase
  | notifies hphase => cases hother hphase
  | completes => rfl

/-- **One turn.** -/
theorem Course.turn {c₀ : Cache} {ts : List Turn} {t : Turn}
    (h : Course k c₀ ts t.worker t.shared.cache) (ht : t.IsStep) :
    Course k c₀ (ts ++ [t]) t.worker' t.shared'.cache := by
  have hleft : t.worker'.phase.isApplying = false → LeftBy k c₀ (ts ++ [t]) t.shared'.cache := by
    intro hphase
    by_cases hsettles : t.Settles
    · exact leftBy_snoc hsettles
    · obtain ⟨hbefore, hcache⟩ := (settles_or_same ht hphase).resolve_left hsettles
      rw [hcache]
      exact (h.left hbefore).snoc hsettles
  by_cases hidle : t.worker.phase = .idle
  · have hnone : ts.filterMap Turn.stop? = [] := h.stays (by rw [hidle]; rfl)
    have hlook := wake?_of_idle hidle ht
    have hreads := filterMap_stop?_snoc ts t
    rw [hnone, List.nil_append, Turn.stop?_of_idle hidle] at hreads
    cases hreason : t.worker.handle.reason t.root with
    | none =>
        have hstays : t.worker'.phase.isLeaving = false := isLeaving_wake hidle hreason hlook
        refine ⟨ht.key.trans h.key, hleft, fun _ => by rw [hreads, hreason]; rfl, fun hleaves => ?_⟩
        exact absurd (hstays.symm.trans hleaves) nofun
    | some reason =>
        have heq := wake_of_reason hreason hlook
        have hw' := congrArg Prod.fst heq
        dsimp only at hw'
        rw [hreason] at hreads
        cases reason with
        | ruleDeleted =>
            have hclears : t.Resets := ⟨hidle, t.worker.handle, .exit, rfl, heq⟩
            have hleaving : t.worker'.phase.isLeaving = true := by
              rw [hw']
              exact (spares_clear (k := k) t.worker .exit t.shared).leaving
            refine ⟨ht.key.trans h.key, hleft, fun hstays => ?_, fun _ => Or.inl ⟨hreads, ?_⟩⟩
            · exact absurd (hstays.symm.trans hleaving) nofun
            · rw [← h.key]
              exact Turn.ofRule_of_resets hclears
        | shutdown =>
            have hexited : t.worker'.phase = .exited := by
              rw [hw']
              rfl
            refine ⟨ht.key.trans h.key, hleft, fun hstays => ?_, fun _ => Or.inr ⟨hreads, hexited⟩⟩
            rw [hexited] at hstays
            cases hstays
  · have hreads := filterMap_stop?_snoc ts t
    rw [Turn.stop?_of_not_idle hidle, Option.toList_none, List.append_nil] at hreads
    have hsame : t.worker'.phase.isLeaving = t.worker.phase.isLeaving := isLeaving_step hidle ht
    refine ⟨ht.key.trans h.key, hleft, ?_, ?_⟩
    · rw [hsame, hreads]
      exact h.stays
    · rw [hsame, hreads]
      intro hleaving
      rcases h.leaves hleaving with ⟨hdeleted, hnone⟩ | ⟨-, hexited⟩
      · refine Or.inl ⟨hdeleted, ?_⟩
        rw [cache_of_leaving ht hleaving]
        exact hnone
      · have hdead : t.worker.isLive = false := isLive_eq_false_iff.2 (Or.inl hexited)
        exact absurd (ht.symm.trans (step_of_not_live hdead t.input)) nofun

end Worker

/-! ## Runs -/

namespace System

open Worker (Turn Course LeftBy Isolated)

variable {s t u : System} {n : Nat} {w v : Worker} {k : RuleKey} {a : Action} {as : List Action}

/-- No routine of rule `k` is live, unless it is routine `n`. -/
def isSole (s : System) (n : Nat) (k : RuleKey) : Bool :=
  s.registry.entries.zipIdx.all fun e => e.2 == n || e.1.key != k || !e.1.isLive

/-- So it is all the way. -/
def Sole (s : System) (n : Nat) (k : RuleKey) (as : List Action) : Prop :=
  ∀ bs, bs <+: as → ∀ t, s.run? bs = some t → t.isSole n k = true

theorem isLive_eq_false_of_isSole (h : s.isSole n k = true) {m : Nat}
    (hw : s.registry.entries[m]? = some w) (hm : m ≠ n) (hk : w.key = k) : w.isLive = false := by
  have hmem : (w, m) ∈ s.registry.entries.zipIdx := List.mem_zipIdx_iff_getElem?.2 hw
  have hdead := List.all_eq_true.1 h (w, m) hmem
  simpa [hm, hk] using hdead

/-- A step of another routine is not of the sole routine's rule. -/
theorem key_ne_of_isSole (h : s.isSole n k = true) {m : Nat} {input : Input} (hm : m ≠ n)
    (hstep : s.step? (.worker m input) = some t) (hw : s.registry.entries[m]? = some w) :
    w.key ≠ k := by
  intro hk
  obtain ⟨v, v', d, hv, hv', -⟩ := stepWorker_cases hstep
  obtain rfl := Option.some.inj (hw.symm.trans hv)
  have hdead := isLive_eq_false_of_isSole h hw hm hk
  exact absurd (hv'.symm.trans (Worker.step_of_not_live hdead input)) nofun

/-- An action is a turn of routine `n`, or the routine waits. -/
theorem turn_or_wait (hs : s.Tracks) (ha : a.IsListed) (h : s.step? a = some t)
    (hw : s.registry.entries[n]? = some w) :
    (∃ x : Turn, s.turn? n a = some x ∧ x.IsStep ∧ x.root = s.root ∧ x.worker = w ∧
        x.shared = s.shared ∧ x.shared' = t.shared ∧
        t.registry.entries[n]? = some x.worker') ∨
      s.turn? n a = none ∧ (∀ input, a ≠ .worker n input) ∧
        ∃ v, t.registry.entries[n]? = some v ∧ w.Abides v := by
  have hstays : s.Stays t → ∃ v, t.registry.entries[n]? = some v ∧ w.Abides v := by
    intro hst
    obtain ⟨v, hv, hstay⟩ := hst.kept hw
    exact ⟨v, hv, hstay.abides⟩
  cases a with
  | worker m input =>
      obtain ⟨w', v, d, hw', hstep, rfl, hv, hothers⟩ := stepWorker_cases h
      by_cases hm : m = n
      · subst hm
        obtain rfl := Option.some.inj (hw.symm.trans hw')
        refine Or.inl ⟨⟨s.root, input, w, s.shared, v, d⟩, ?_, hstep, rfl, rfl, rfl, rfl, hv⟩
        rw [turn?, if_pos rfl, hw]
        dsimp only [bind, Option.bind]
        rw [hstep]
        rfl
      · refine Or.inr ⟨if_neg hm, ?_, w, (hothers n hm).trans hw, rfl, rfl⟩
        rintro _ heq
        exact hm (Action.worker.inj heq).1
  | _ =>
      refine Or.inr ⟨rfl, ?_, hstays (stays_step hs ha h ?_)⟩
      · rintro _ ⟨⟩
      · rintro _ _ ⟨⟩

/-! ### A routine that is stopped -/

/-- A stop is for good. -/
theorem root_ne_none_step (hs : s.Tracks) (ha : a.IsListed) (h : s.step? a = some t)
    (hroot : s.root ≠ none) : t.root ≠ none := by
  by_cases hstop : a = .stopAll
  · subst hstop
    cases h
    intro hnone
    exact hroot (Option.or_eq_none_iff.1 hnone).1
  · rw [root_step hs ha hstop h]
    exact hroot

theorem isStopped_step (hs : s.Tracks) (ha : a.IsListed) (h : s.step? a = some t)
    (hw : s.registry.entries[n]? = some w) (hv : t.registry.entries[n]? = some v)
    (hstop : w.handle.isStopped s.root = true) : v.handle.isStopped t.root = true := by
  rw [Handle.isStopped_iff] at hstop ⊢
  refine hstop.imp (fun hown => ?_) (root_ne_none_step hs ha h)
  have hstays : s.Stays t → v.handle.stop ≠ none := by
    intro hst
    obtain ⟨v', hv', hstay⟩ := hst.kept hw
    obtain rfl := Option.some.inj (hv.symm.trans hv')
    rcases hstay.stop with hsame | htold
    · rw [hsame]
      exact hown
    · rw [htold]
      exact nofun
  cases a with
  | worker m input =>
      obtain ⟨w', w'', d, hw', hstep, -, hw'', hothers⟩ := stepWorker_cases h
      by_cases hm : m = n
      · subst hm
        obtain rfl := Option.some.inj (hw.symm.trans hw')
        obtain rfl := Option.some.inj (hv.symm.trans hw'')
        rw [(Worker.frame_of_step hstep).1.2]
        exact hown
      · obtain rfl := Option.some.inj (hw.symm.trans ((hothers n hm).symm.trans hv))
        exact hown
  | _ => exact hstays (stays_step hs ha h nofun)

/-- **A stop in time.** Whatever the routine still does, it does without its evaluation. -/
theorem withholds_run (hs : s.Tracks) (ha : ∀ a ∈ as, a.IsListed) (h : s.run? as = some t)
    (hw : s.registry.entries[n]? = some w) (hstop : w.handle.isStopped s.root = true)
    (hcalm : w.phase.IsCalm) : ∀ x ∈ s.turns n as, x.Withholds := by
  induction as generalizing s w with
  | nil => exact List.forall_mem_nil _
  | cons a as ih =>
      rw [List.forall_mem_cons] at ha
      rw [run?, List.foldlM_cons] at h
      obtain ⟨u, hu, h⟩ := Option.bind_eq_some_iff.1 h
      have htracks := tracks_step hs ha.1 hu
      rw [turns, hu, List.forall_mem_append]
      rcases turn_or_wait hs ha.1 hu hw with
        ⟨x, hx, hstep, hroot, rfl, -, -, hv⟩ | ⟨hnone, -, v, hv, habides⟩
      · obtain ⟨hwithholds, hcalm'⟩ := Worker.withholds_of_step hstep (hroot ▸ hstop) hcalm
        rw [hx]
        exact ⟨List.forall_mem_singleton.2 hwithholds,
          ih htracks ha.2 h hv (isStopped_step hs ha.1 hu hw hv hstop) hcalm'⟩
      · rw [hnone]
        exact ⟨List.forall_mem_nil _, ih htracks ha.2 h hv
          (isStopped_step hs ha.1 hu hw hv hstop) (habides.phase ▸ hcalm)⟩

/-- **A stop while the evaluator is under way.** Only what the evaluator comes to before the next
look is counted. -/
theorem isolated_run (hs : s.Tracks) (ha : ∀ a ∈ as, a.IsListed) (h : s.run? as = some t)
    (hw : s.registry.entries[n]? = some w) (hstop : w.handle.isStopped s.root = true)
    (hunder : w.phase.isUnderWay = true) : Isolated w.phase (s.turns n as) := by
  induction as generalizing s w with
  | nil => exact Worker.isolated_of_withholds (List.forall_mem_nil _)
  | cons a as ih =>
      rw [List.forall_mem_cons] at ha
      rw [run?, List.foldlM_cons] at h
      obtain ⟨u, hu, h⟩ := Option.bind_eq_some_iff.1 h
      have htracks := tracks_step hs ha.1 hu
      rw [turns, hu]
      rcases turn_or_wait hs ha.1 hu hw with
        ⟨x, hx, hstep, hroot, rfl, -, -, hv⟩ | ⟨hnone, -, v, hv, habides⟩
      · have hstop' := isStopped_step hs ha.1 hu hw hv hstop
        have hrest : x.worker'.phase.IsCalm → ∀ y ∈ u.turns n as, y.Withholds :=
          withholds_run htracks ha.2 h hv hstop'
        rw [hx]
        rcases Worker.isolates_of_step hstep (hroot ▸ hstop) hunder with
          ⟨hwithholds, hcalm | ⟨hunder', hcalled⟩⟩ | ⟨hisolates, hcalm, hconcludes⟩
        · exact Worker.isolated_cons_of_calm hunder (Or.inl hwithholds) (hrest hcalm)
        · exact (ih htracks ha.2 h hv hstop' hunder').cons hunder hwithholds hcalled
        · exact Worker.isolated_cons_of_calm hunder (Or.inr ⟨hisolates, hconcludes⟩) (hrest hcalm)
      · rw [hnone, ← habides.phase]
        exact ih htracks ha.2 h hv (isStopped_step hs ha.1 hu hw hv hstop)
          (habides.phase ▸ hunder)

/-! ### A routine from its start -/

theorem turns_singleton (s : System) (n : Nat) (a : Action) :
    s.turns n [a] = (s.turn? n a).toList := by
  rw [turns]
  split
  · exact List.append_nil _
  · exact List.append_nil _

theorem turns_snoc (h : s.run? as = some u) (n : Nat) (a : Action) :
    s.turns n (as ++ [a]) = s.turns n as ++ (u.turn? n a).toList := by
  induction as generalizing s with
  | nil =>
      cases h
      exact u.turns_singleton n a
  | cons b as ih =>
      rw [run?, List.foldlM_cons] at h
      obtain ⟨s', hs', h⟩ := Option.bind_eq_some_iff.1 h
      rw [List.cons_append, turns, turns, hs', List.append_assoc]
      exact congrArg _ (ih h)

theorem Sole.of_append {bs : List Action} (h : s.Sole n k (as ++ bs)) : s.Sole n k as :=
  fun cs hcs => h cs (hcs.trans (List.prefix_append as bs))

/-- **The course of a routine.** -/
theorem course_run (hs : s.Reached) (hf : s.Filed) (ha : ∀ a ∈ as, a.IsListed)
    (h : s.run? as = some t) (hw : s.registry.entries[n]? = some (.new k))
    (hsole : s.Sole n k as) :
    ∃ w, t.registry.entries[n]? = some w ∧
      Course k s.shared.cache (s.turns n as) w t.shared.cache := by
  induction as using List.reverseRecOn generalizing t with
  | nil =>
      cases h
      exact ⟨.new k, hw, Worker.course_new k s.shared.cache⟩
  | append_singleton as a ih =>
      rw [List.forall_mem_append, List.forall_mem_singleton] at ha
      rw [run?_snoc] at h
      obtain ⟨u, hu, hstep⟩ := Option.bind_eq_some_iff.1 h
      obtain ⟨v, hv, hcourse⟩ := ih ha.1 hu hsole.of_append
      have horderly := (hs.run ha.1 hu).orderly
      have hfiled := filed_run hf hs ha.1 hu
      have hsole' := hsole as (List.prefix_append as [a]) u hu
      rw [turns_snoc hu]
      rcases turn_or_wait horderly.tracks ha.2 hstep hv with
        ⟨x, hx, hisstep, -, rfl, hbefore, hafter, hw'⟩ | ⟨hnone, hnot, w, hw', habides⟩
      · rw [hx, ← hafter]
        rw [← hbefore] at hcourse
        exact ⟨x.worker', hw', hcourse.turn hisstep⟩
      · rw [hnone, Option.toList_none, List.append_nil]
        refine ⟨w, hw', hcourse.abides habides ?_⟩
        refine ofRule_step_of_other hfiled horderly ha.2 hstep ?_
        rintro m input v rfl hv
        exact key_ne_of_isSole hsole' (fun hm => hnot input (hm ▸ rfl)) hstep hv

/-- **Stop isolation.** A routine starts in an engine whose instances have their names, and no
other routine of its rule is live while it runs. If it or the engine is stopped before the
routine applies verdicts, each of its turns from then on withholds the evaluation, except that
an evaluator under way may be done before the next look, which counts its evaluation. Once the
routine has exited, it has read exactly one reason to stop. If that was the deletion of its rule,
no instance of the rule is left. If it was the stop of the engine, the rule has the instances
that the last reported evaluation or the last clearing left, or if there was none those that it
had at the start. And if its own signal tells of the deletion as the idle routine reads it, that
is the reason, whenever the engine was stopped. -/
theorem stop_isolation {d : Shared} (hd : d.cache.Named) {bs as : List Action}
    (hbs : ∀ a ∈ bs, a.IsListed) (has : ∀ a ∈ as, a.IsListed) (hs : (on d).run? bs = some s)
    (ht : s.run? as = some t) (hw : s.registry.entries[n]? = some (.new k))
    (hsole : s.Sole n k as) :
    (∀ before after u v, as = before ++ after → s.run? before = some u →
      u.registry.entries[n]? = some v → v.handle.isStopped u.root = true →
      v.phase.isApplying = false → Isolated v.phase (u.turns n after)) ∧
    (∀ w, t.registry.entries[n]? = some w → w.phase = .exited →
      ∃ r, (s.turns n as).filterMap Turn.stop? = [r] ∧
        (r = .ruleDeleted → t.shared.cache.ofRule k = ∅) ∧
        (r = .shutdown → LeftBy k s.shared.cache (s.turns n as) t.shared.cache)) ∧
    (∀ x ∈ s.turns n as, x.worker.phase = .idle → x.worker.handle.stop = some .ruleDeleted →
      (s.turns n as).filterMap Turn.stop? = [.ruleDeleted]) := by
  have hreached := (reached_on d).run hbs hs
  have hfiled := filed_run (filed_on hd) (reached_on d) hbs hs
  obtain ⟨v, hv, hcourse⟩ := course_run hreached hfiled has ht hw hsole
  refine ⟨?_, ?_, ?_⟩
  · rintro before after u v rfl hu hv hstop happlying
    rw [List.forall_mem_append] at has
    have hrest : u.run? after = some t := by
      rw [run?, List.foldlM_append] at ht
      obtain ⟨u', hu', ht⟩ := Option.bind_eq_some_iff.1 ht
      obtain rfl := Option.some.inj (hu.symm.trans hu')
      exact ht
    have htracks := (hreached.run has.1 hu).orderly.tracks
    cases hunder : v.phase.isUnderWay with
    | true => exact isolated_run htracks has.2 hrest hv hstop hunder
    | false =>
        exact Worker.isolated_of_withholds
          (withholds_run htracks has.2 hrest hv hstop ⟨hunder, happlying⟩)
  · intro w hw' hexited
    obtain rfl := Option.some.inj (hv.symm.trans hw')
    have hleft := hcourse.left (by rw [hexited]; rfl)
    rcases hcourse.leaves (by rw [hexited]; rfl) with ⟨hreads, hnone⟩ | ⟨hreads, -⟩
    · refine ⟨.ruleDeleted, hreads, fun _ => hnone, ?_⟩
      rintro ⟨⟩
    · refine ⟨.shutdown, hreads, ?_, fun _ => hleft⟩
      rintro ⟨⟩
  · intro x hx hidle hown
    have hread : .ruleDeleted ∈ (s.turns n as).filterMap Turn.stop? := by
      refine List.mem_filterMap.2 ⟨x, hx, ?_⟩
      rw [Turn.stop?_of_idle hidle, Handle.reason_of_stop hown]
    cases hleaving : v.phase.isLeaving with
    | false =>
        rw [hcourse.stays hleaving] at hread
        cases hread
    | true =>
        rcases hcourse.leaves hleaving with ⟨hreads, -⟩ | ⟨hreads, -⟩
        · exact hreads
        · rw [hreads] at hread
          cases List.mem_singleton.1 hread

/-- An engine with one routine, whose rule is evaluated every ten seconds. -/
def begun : System :=
  ((on { clock := .epoch }).tick .epoch
    (some (.ofListing [{ uid := "b", intervalSeconds := 10 }] ∅))).2

/-- The first evaluation finds a breach and is over. While the evaluator of the next one waits
the engine is stopped. -/
def interrupted : List Action :=
  [.release 0, .worker 0 .wake, .worker 0 .look, .worker 0 (.built (.ok ())),
   .worker 0 (.evaluated (.ok [{ labels := ∅, status := .alerting, time := .epoch }])),
   .worker 0 .proceed, .worker 0 .delivered, .elapse 10000, .tick ⟨10 * nanosPerSecond⟩ none,
   .release 1, .worker 0 .wake, .worker 0 .look, .worker 0 (.built (.ok ())), .worker 0 .suspend,
   .stopAll]

/-- The routine gives the evaluation up and leaves. -/
def leaves : List Action := [.worker 0 .look, .worker 0 .wake]

/-- The rule is deleted before the routine looks. -/
def leavesDeleted : List Action :=
  [.worker 0 .look, .delete [⟨1, "b"⟩], .worker 0 .wake, .worker 0 (.stored 0 true),
   .worker 0 .delivered]

theorem sole_of_inits (h : (as.inits.all fun bs => (s.run? bs).all (·.isSole n k)) = true) :
    s.Sole n k as := by
  intro bs hbs t ht
  have hall := List.all_eq_true.1 h bs ((List.mem_inits bs as).2 hbs)
  rw [ht] at hall
  exact hall

theorem exited_of_leaving (hleaving : w.phase.isLeaving = true) (hlive : w.isLive = false) :
    w.phase = .exited := by
  rcases Worker.isLive_eq_false_iff.1 hlive with hexited | hcrashed
  · exact hexited
  · rw [hcrashed] at hleaving
    cases hleaving

/-- The deletion is the reason that counts, though the engine was stopped before. -/
theorem stop_isolation_interrupted :
    (∃ u, begun.run? interrupted = some u ∧ (u.turns 0 leaves).length = 2 ∧
      ∀ x ∈ u.turns 0 leaves, x.Withholds) ∧
    (∃ t, begun.run? (interrupted ++ leaves) = some t ∧ t.shared.cache.ids ⟨1, "b"⟩ ≠ [] ∧
      LeftBy ⟨1, "b"⟩ begun.shared.cache (begun.turns 0 (interrupted ++ leaves))
        t.shared.cache) ∧
    ∃ t, begun.run? (interrupted ++ leavesDeleted) = some t ∧
      (begun.turns 0 (interrupted ++ leavesDeleted)).filterMap Turn.stop? = [.ruleDeleted] ∧
      t.shared.cache.ofRule ⟨1, "b"⟩ = ∅ := by
  have hlisted : ∀ a ∈ [Action.tick .epoch
      (some (.ofListing [{ uid := "b", intervalSeconds := 10 }] ∅))], a.IsListed :=
    List.forall_mem_singleton.2 ⟨_, _, rfl⟩
  have hstays : ∀ a ∈ interrupted ++ leaves, a.IsListed := by
    simp [interrupted, leaves, Action.IsListed]
  have hgoes : ∀ a ∈ interrupted ++ leavesDeleted, a.IsListed := by
    simp [interrupted, leavesDeleted, Action.IsListed]
  have hentry : begun.registry.entries[0]? = some (.new ⟨1, "b"⟩) := rfl
  have hcut : ((begun.run? interrupted).bind fun u => u.registry.entries[0]?.map fun v =>
      v.handle.isStopped u.root && !v.phase.isApplying && !v.phase.isUnderWay &&
        (u.turns 0 leaves).length == 2) = some true := by decide +kernel
  have hshutdown : ((begun.run? (interrupted ++ leaves)).bind fun t =>
      t.registry.entries[0]?.map fun w => w.phase.isLeaving && !w.isLive &&
        decide (t.shared.cache.ids ⟨1, "b"⟩ ≠ []) &&
        (begun.turns 0 (interrupted ++ leaves)).filterMap Turn.stop? == [.shutdown]) =
          some true := by decide +kernel
  have hdeleted : ((begun.run? (interrupted ++ leavesDeleted)).bind fun t =>
      t.registry.entries[0]?.map fun w => w.phase.isLeaving && !w.isLive &&
        (begun.turns 0 (interrupted ++ leavesDeleted)).filterMap Turn.stop? ==
          [.ruleDeleted]) = some true := by decide +kernel
  obtain ⟨u, hu, h⟩ := Option.bind_eq_some_iff.1 hcut
  obtain ⟨v, hv, h⟩ := Option.map_eq_some_iff.1 h
  simp only [Bool.and_eq_true, Bool.not_eq_true', beq_iff_eq] at h
  obtain ⟨⟨⟨hstopped, hphase⟩, hwaits⟩, hlength⟩ := h
  obtain ⟨t, ht, h⟩ := Option.bind_eq_some_iff.1 hshutdown
  obtain ⟨w, hw, h⟩ := Option.map_eq_some_iff.1 h
  simp only [Bool.and_eq_true, Bool.not_eq_true', beq_iff_eq, decide_eq_true_eq] at h
  obtain ⟨⟨⟨hleaving, hlive⟩, hids⟩, hreads⟩ := h
  obtain ⟨t', ht', h⟩ := Option.bind_eq_some_iff.1 hdeleted
  obtain ⟨w', hw', h⟩ := Option.map_eq_some_iff.1 h
  simp only [Bool.and_eq_true, Bool.not_eq_true', beq_iff_eq] at h
  obtain ⟨⟨hleaving', hlive'⟩, hreads'⟩ := h
  obtain ⟨hisolated, hexit, -⟩ := stop_isolation (d := { clock := .epoch }) Cache.named_empty
    hlisted hstays rfl ht hentry (sole_of_inits (by decide +kernel))
  obtain ⟨-, hexit', -⟩ := stop_isolation (d := { clock := .epoch }) Cache.named_empty
    hlisted hgoes rfl ht' hentry (sole_of_inits (by decide +kernel))
  obtain ⟨r, hr, -, hleft⟩ := hexit w hw (exited_of_leaving hleaving hlive)
  obtain ⟨r', hr', hnone, -⟩ := hexit' w' hw' (exited_of_leaving hleaving' hlive')
  obtain rfl := List.singleton_inj.1 (hr.symm.trans hreads)
  obtain rfl := List.singleton_inj.1 (hr'.symm.trans hreads')
  have hwithholds := hisolated interrupted leaves u v rfl hu hv hstopped hphase
  exact ⟨⟨u, hu, hlength, hwithholds.withholds hwaits⟩, ⟨t, ht, hids, hleft rfl⟩, t', ht', hreads',
    hnone rfl⟩

/-- The evaluator is at work as the engine is stopped. -/
def stoppedAtWork : List Action :=
  [.release 0, .worker 0 .wake, .worker 0 .look, .worker 0 (.built (.ok ())), .stopAll]

/-- An instance from the store, and a routine that has just started. -/
def restarted : System :=
  let row : Row := {
    org := 1, ruleUid := "b", labels := ∅, hash := "", status := .alerting, reason := ""
    since := some .epoch, endsAt := none, lastEvaluation := .epoch }
  let cache := (Cache.restore? {} {} [{ uid := "b" }] [row]).map Prod.snd
  ((on { clock := .epoch, cache := cache.getD {} }).tick .epoch
    (some (.ofListing [{ uid := "b", intervalSeconds := 10 }] ∅))).2

/-- An evaluation may be counted that was stopped with its outcome still out, and a routine that
leaves because of a stop may leave instances that neither an evaluation nor a clearing left. -/
theorem counted_although_stopped :
    (∃ s t, begun.run? stoppedAtWork = some s ∧ s.root = some .shutdown ∧
      (s.registry.entries[0]?.bind (·.phase.called?)).isSome = true ∧
      s.step? (.worker 0 (.evaluated (.ok []))) = some t ∧
      (s.shared.metrics.readEvaluations 1).1 = 0 ∧
      (t.shared.metrics.readEvaluations 1).1 = 1) ∧
    ∃ t, restarted.run? [.stopAll, .worker 0 .wake] = some t ∧
      t.registry.entries[0]?.any (·.phase.isLeaving) = true ∧
      (restarted.turns 0 [.stopAll, .worker 0 .wake]).filterMap Turn.stop? = [.shutdown] ∧
      (∀ x ∈ restarted.turns 0 [.stopAll, .worker 0 .wake], ¬ x.Settles) ∧
      t.shared.cache.ids ⟨1, "b"⟩ ≠ [] := by
  have hcounts : ((begun.run? stoppedAtWork).bind fun s =>
      (s.step? (.worker 0 (.evaluated (.ok [])))).map fun t =>
        s.root == some .shutdown && (s.registry.entries[0]?.bind (·.phase.called?)).isSome &&
          (s.shared.metrics.readEvaluations 1).1 == 0 &&
          (t.shared.metrics.readEvaluations 1).1 == 1) = some true := by decide +kernel
  have hleaves : ((restarted.run? [.stopAll, .worker 0 .wake]).map fun t =>
      t.registry.entries[0]?.any (·.phase.isLeaving) &&
        (restarted.turns 0 [.stopAll, .worker 0 .wake]).filterMap Turn.stop? == [.shutdown] &&
        (restarted.turns 0 [.stopAll, .worker 0 .wake]).all (fun x =>
          x.worker.key == ⟨1, "b"⟩ && x.shared'.reports == x.shared.reports &&
            decide (x.shared'.cache.ids ⟨1, "b"⟩ ≠ [])) &&
        decide (t.shared.cache.ids ⟨1, "b"⟩ ≠ [])) = some true := by decide +kernel
  obtain ⟨s, hs, h⟩ := Option.bind_eq_some_iff.1 hcounts
  obtain ⟨t, ht, h⟩ := Option.map_eq_some_iff.1 h
  simp only [Bool.and_eq_true, beq_iff_eq] at h
  obtain ⟨⟨⟨hroot, hcalled⟩, hbefore⟩, hafter⟩ := h
  obtain ⟨t', ht', h⟩ := Option.map_eq_some_iff.1 hleaves
  simp only [Bool.and_eq_true, beq_iff_eq, List.all_eq_true, decide_eq_true_eq] at h
  obtain ⟨⟨⟨hleaving, hreads⟩, hturns⟩, hids⟩ := h
  refine ⟨⟨s, t, hs, hroot, hcalled, ht, hbefore, hafter⟩, t', ht', hleaving, hreads,
    fun x hx hsettles => ?_, hids⟩
  obtain ⟨⟨hkey, hreports⟩, hstays⟩ := hturns x hx
  rcases hsettles with hcompletes | hresets
  · exact hcompletes hreports
  -- a clearing would have left none
  · refine hstays ?_
    rw [← hkey, Cache.ids, Turn.ofRule_of_resets hresets]
    rfl

end System

end Vigil
