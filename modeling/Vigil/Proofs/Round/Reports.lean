import Vigil.Proofs.Instance.History
import Vigil.Proofs.Round.Delivery
import Vigil.Proofs.Round.Times

/-!
# What an evaluation reports of one instance

A round reports an instance after each verdict that names it, and what is sent are the
reports that are due. So the entry of an identity after an evaluation is its last
report, dated with the last alert about it, unless the evaluation found it stale
(`Cache.get?_handle`). All reports of an evaluation are judged by the date that the entry
had before it (`Cache.mem_alerts_iff`).
-/

namespace Vigil

namespace Instance

/-- The instance stands where its own fields put it, and one that is resolved is
normal. -/
structure FiledAs (i : Instance) (k : RuleKey) (id : String) : Prop where
  ruleKey : i.ruleKey = k
  id : i.id = id
  normal : i.resolved = true → i.status = .normal

/-- A verdict leaves the names of an instance alone, and the date of its last alert. -/
theorem next_frame (i : Instance) (a : Application) :
    (i.next a).ruleKey = i.ruleKey ∧ (i.next a).id = i.id ∧ (i.next a).sentAt = i.sentAt := by
  unfold next apply
  split
  · exact ⟨rfl, rfl, rfl⟩
  dsimp only
  split
  · exact ⟨rfl, rfl, rfl⟩
  · exact ⟨rfl, rfl, rfl⟩

theorem filedAs_new {r : Rule} {labels : Labels} {id : String} (h : labels.id = id)
    (history : Nat) : (new r labels history).FiledAs r.key id :=
  ⟨rfl, h, fun hresolved => absurd hresolved Bool.false_ne_true⟩

theorem FiledAs.next {i : Instance} {k : RuleKey} {id : String} (h : i.FiledAs k id)
    {a : Application} (ha : a.counts = true) (hc : a.InCalendar) : (i.next a).FiledAs k id := by
  obtain ⟨hkey, hid, -⟩ := i.next_frame a
  refine ⟨hkey.trans h.ruleKey, hid.trans h.id, fun hresolved => ?_⟩
  rw [(i.settled_next ha hc).resolved, Bool.and_eq_true, beq_iff_eq, beq_iff_eq] at hresolved
  exact hresolved.2

theorem FiledAs.resolved_eq_false {i : Instance} {k : RuleKey} {id : String}
    (h : i.FiledAs k id) (hactive : i.status.isActive = true) : i.resolved = false := by
  by_contra hresolved
  rw [h.normal (by simpa using hresolved)] at hactive
  cases hactive

/-- The instances stand in order of their last evaluations. -/
def InOrder (is : List Instance) : Prop :=
  is.Pairwise fun a b => a.lastEvaluation ≤ b.lastEvaluation

theorem InOrder.le_getLast {is : List Instance} (h : InOrder is) {a last : Instance}
    (ha : a ∈ is) (hlast : is.getLast? = some last) : a.lastEvaluation ≤ last.lastEvaluation := by
  obtain ⟨earlier, rfl⟩ := List.getLast?_eq_some_iff.1 hlast
  rcases List.mem_append.1 ha with ha | ha
  · exact (List.pairwise_append.1 h).2.2 a ha last (by simp)
  · rw [List.mem_singleton.1 ha]
    exact Int.le_refl _

end Instance

/-- Every instance is filed under the rule and under its identity. -/
def RuleInstances.Filed (rs : RuleInstances) (k : RuleKey) : Prop :=
  ∀ id i, rs.find? id = some i → i.FiledAs k id

/-! ## A sweep -/

namespace Sweep

variable {r : Rule} {extra : Labels} {p : TransitionPolicy} {history : Nat} {rs : RuleInstances}
  {vs : List Verdict} {v : Verdict} {id : String} {i : Instance}

/-- What the sweep reports of the instance under `id`, in order. -/
def reports (s : Sweep) (id : String) : List Instance := s.processed.filter (·.id == id)

/-- A verdict that names the instance and counts moves it; any other leaves it alone. -/
theorem find?_run_snoc (id : String)
    (h : (run r extra p history rs (vs ++ [v])).failed = false) :
    (run r extra p history rs vs).failed = false ∧
      (((r.idOf extra v ≠ id ∨ v.status = .pending) ∧
        (run r extra p history rs (vs ++ [v])).instances.find? id =
          (run r extra p history rs vs).instances.find? id) ∨
      (r.idOf extra v = id ∧ v.status ≠ .pending ∧ (v.under r p).InCalendar ∧
        (run r extra p history rs (vs ++ [v])).instances.find? id =
          some ((((run r extra p history rs vs).instances.find? id).getD
            (.new r (r.expand extra v.labels) history)).next (v.under r p)))) := by
  obtain ⟨hs, hw, -, hcases⟩ := run_snoc_cases h
  refine ⟨hs, ?_⟩
  rcases hcases with ⟨hpending, hinstances, -⟩ | ⟨hcounts, after, rfl, hinstances, -⟩
  · exact Or.inl ⟨Or.inr hpending, by rw [hinstances]⟩
  · rw [hinstances, Table.find?_insert]
    by_cases hid : r.idOf extra v = id
    · refine Or.inr ⟨hid, hcounts, (hw hcounts).1, ?_⟩
      rw [if_pos (by simp [hid]), hid]
    · refine Or.inl ⟨Or.inl hid, ?_⟩
      rw [if_neg (by simpa using fun heq => hid heq.symm)]

/-- An identity without an entry had none at first. -/
theorem find?_eq_none_of_run (h : (run r extra p history rs vs).failed = false)
    (hnone : (run r extra p history rs vs).instances.find? id = none) : rs.find? id = none := by
  induction vs using List.reverseRecOn with
  | nil => exact hnone
  | append_singleton vs v ih =>
      obtain ⟨hs, ⟨-, hsame⟩ | ⟨-, -, -, hmoved⟩⟩ := find?_run_snoc id h
      · exact ih hs (hsame ▸ hnone)
      · cases hmoved.symm.trans hnone

/-- What holds of the entry of an identity at first and after each verdict about it, holds
of it after the sweep. -/
theorem entry_of_run (Q : Instance → Prop)
    (h : (run r extra p history rs vs).failed = false)
    (hold : ∀ i, rs.find? id = some i → Q i)
    (hnext : ∀ v ∈ vs, r.idOf extra v = id → (v.under r p).counts = true →
      (v.under r p).InCalendar → ∀ i,
        (Q i ∨ rs.find? id = none ∧ i = .new r (r.expand extra v.labels) history) →
        Q (i.next (v.under r p)))
    (hi : (run r extra p history rs vs).instances.find? id = some i) : Q i := by
  induction vs using List.reverseRecOn generalizing i with
  | nil => exact hold i hi
  | append_singleton vs v ih =>
      obtain ⟨hs, hcases⟩ := find?_run_snoc id h
      have hentry : ∀ i, (run r extra p history rs vs).instances.find? id = some i → Q i :=
        fun i hi => ih hs (fun u hu => hnext u (List.mem_append_left _ hu)) hi
      rcases hcases with ⟨-, hsame⟩ | ⟨hid, hcounts, hc, hmoved⟩
      · exact hentry i (hsame ▸ hi)
      · obtain rfl := Option.some.inj (hmoved.symm.trans hi)
        refine hnext v (by simp) hid (Application.counts_iff.2 hcounts) hc _ ?_
        cases hknown : (run r extra p history rs vs).instances.find? id with
        | none => exact Or.inr ⟨find?_eq_none_of_run hs hknown, rfl⟩
        | some i => exact Or.inl (hentry i hknown)

theorem filed_run (h : (run r extra p history rs vs).failed = false) (hrs : rs.Filed r.key) :
    RuleInstances.Filed (run r extra p history rs vs).instances r.key := by
  intro id i hi
  refine entry_of_run (·.FiledAs r.key id) h (hrs id) ?_ hi
  rintro v - hid hcounts hc i (hi | ⟨-, rfl⟩)
  · exact hi.next hcounts hc
  · exact (Instance.filedAs_new hid history).next hcounts hc

/-- A sweep sends nothing. -/
theorem sentAt_run (h : (run r extra p history rs vs).failed = false)
    (hi : (run r extra p history rs vs).instances.find? id = some i) :
    i.sentAt = (rs.find? id).bind (·.sentAt) := by
  refine entry_of_run (·.sentAt = (rs.find? id).bind (·.sentAt)) h ?_ ?_ hi
  · rintro i hi
    rw [hi]
    rfl
  rintro v - - - - i (hi | ⟨hnone, rfl⟩)
  · exact (i.next_frame _).2.2.trans hi
  · rw [hnone]
    exact ((Instance.new r _ history).next_frame _).2.2

/-- After a verdict that names it, the instance is reported as it then is. -/
theorem reports_run_snoc (id : String)
    (h : (run r extra p history rs (vs ++ [v])).failed = false) (hrs : rs.Filed r.key) :
    (run r extra p history rs (vs ++ [v])).reports id =
      (run r extra p history rs vs).reports id ++
        if r.idOf extra v = id then
          ((run r extra p history rs (vs ++ [v])).instances.find? id).toList else [] := by
  -- the report is the entry of the identity that the verdict names
  have hreport : (run r extra p history rs (vs ++ [v])).processed =
      (run r extra p history rs vs).processed ++
        ((run r extra p history rs (vs ++ [v])).instances.find? (r.idOf extra v)).toList := by
    obtain ⟨-, -, -, hcases⟩ := run_snoc_cases h
    rcases hcases with ⟨-, hinstances, hprocessed⟩ | ⟨-, after, -, hinstances, hprocessed⟩
    · rw [hprocessed, hinstances]
    · rw [hprocessed, hinstances, Table.find?_insert, if_pos (by simp)]
      rfl
  unfold reports
  rw [hreport, List.filter_append]
  congr 1
  cases hentry : (run r extra p history rs (vs ++ [v])).instances.find? (r.idOf extra v) with
  | none =>
      split
      · rename_i hid
        rw [← hid, hentry]
        rfl
      · rfl
  | some i =>
      have hi : i.id = r.idOf extra v := (filed_run h hrs _ _ hentry).id
      by_cases hid : r.idOf extra v = id
      · rw [if_pos hid, ← hid, hentry]
        simp [hi]
      · rw [if_neg hid]
        simp [hi, hid]

/-- A report is the entry of its identity after some of the verdicts. -/
theorem exists_entry_of_mem_reports (h : (run r extra p history rs vs).failed = false)
    (hrs : rs.Filed r.key) (hi : i ∈ (run r extra p history rs vs).reports id) :
    ∃ us, us <+: vs ∧ (∃ v ∈ us, r.idOf extra v = id) ∧
      (run r extra p history rs us).failed = false ∧
      (run r extra p history rs us).instances.find? id = some i := by
  induction vs using List.reverseRecOn with
  | nil => cases hi
  | append_singleton vs v ih =>
      rw [reports_run_snoc id h hrs, List.mem_append] at hi
      rcases hi with hi | hi
      · obtain ⟨us, hus, hentry⟩ := ih (run_snoc_cases h).1 hi
        exact ⟨us, hus.trans (List.prefix_append vs [v]), hentry⟩
      · split at hi
        · rename_i hid
          exact ⟨vs ++ [v], List.prefix_rfl, ⟨v, by simp, hid⟩, h, by simpa using hi⟩
        · cases hi

/-- The entry of an identity is the last report about it. -/
theorem find?_run_eq_getLast? (id : String)
    (h : (run r extra p history rs vs).failed = false) (hrs : rs.Filed r.key) :
    (run r extra p history rs vs).instances.find? id =
      ((run r extra p history rs vs).reports id).getLast?.or (rs.find? id) := by
  induction vs using List.reverseRecOn with
  | nil => rfl
  | append_singleton vs v ih =>
      have hreports := reports_run_snoc id h hrs
      obtain ⟨hs, hcases⟩ := find?_run_snoc id h
      rcases hcases with ⟨hno, hsame⟩ | ⟨hid, -, -, hmoved⟩
      · -- a pending verdict shows what is there, or nothing if nothing is
        rw [hreports, hsame, ih hs]
        split
        · cases hlast : (((run r extra p history rs vs).reports id).getLast?.or (rs.find? id)) with
          | none => simpa using hlast.symm
          | some i => simp
        · rw [List.append_nil]
      · rw [hreports, if_pos hid, hmoved]
        simp

/-- A report is dated by a verdict, or by the entry there was at first. -/
theorem date_of_mem_reports (h : (run r extra p history rs vs).failed = false)
    (hrs : rs.Filed r.key) (hi : i ∈ (run r extra p history rs vs).reports id) :
    (∃ old, rs.find? id = some old ∧ i.lastEvaluation = old.lastEvaluation) ∨
      ∃ v ∈ vs, i.lastEvaluation = v.time := by
  obtain ⟨us, hus, -, -, hentry⟩ := exists_entry_of_mem_reports h hrs hi
  rcases find?_run hentry with hold | ⟨v, hv, htime⟩
  · exact Or.inl ⟨i, hold, rfl⟩
  · exact Or.inr ⟨v, hus.subset hv, htime⟩

/-- Verdicts in order of time make reports in order of time. -/
theorem inOrder_reports (h : (run r extra p history rs vs).failed = false)
    (hrs : rs.Filed r.key) (hvs : vs.Pairwise fun u v => u.time ≤ v.time)
    (hold : ∀ i, rs.find? id = some i → ∀ v ∈ vs, i.lastEvaluation ≤ v.time) :
    Instance.InOrder ((run r extra p history rs vs).reports id) := by
  induction vs using List.reverseRecOn with
  | nil => exact List.Pairwise.nil
  | append_singleton vs v ih =>
      obtain ⟨hvs, -, hlater⟩ := List.pairwise_append.1 hvs
      obtain ⟨hs, hcases⟩ := find?_run_snoc id h
      have hsofar := ih hs hvs fun i hi u hu => hold i hi u (List.mem_append_left _ hu)
      rw [reports_run_snoc id h hrs]
      split
      swap
      · rwa [List.append_nil]
      cases hentry : (run r extra p history rs (vs ++ [v])).instances.find? id with
      | none => rwa [Option.toList_none, List.append_nil]
      | some b =>
      refine List.pairwise_append.2 ⟨hsofar, List.pairwise_singleton _ _, fun a ha b' hb' => ?_⟩
      obtain rfl := List.mem_singleton.1 hb'
      rcases hcases with ⟨-, hsame⟩ | ⟨-, hcounts, -, hmoved⟩
      · -- a pending verdict shows the last report once more
        refine hsofar.le_getLast ha ?_
        rw [hsame, find?_run_eq_getLast? id hs hrs] at hentry
        cases hlast : ((run r extra p history rs vs).reports id).getLast? with
        | none => simp [List.getLast?_eq_none_iff.1 hlast] at ha
        | some last => simpa [hlast] using hentry
      · obtain rfl := Option.some.inj (hmoved.symm.trans hentry)
        have hdate : ∀ i : Instance, (i.next (v.under r p)).lastEvaluation = v.time :=
          fun i => i.lastEvaluation_apply r p hcounts
        rw [hdate]
        rcases date_of_mem_reports hs hrs ha with ⟨old, hknown, hdate⟩ | ⟨u, hu, hdate⟩
        · rw [hdate]
          exact hold old hknown v (by simp)
        · rw [hdate]
          exact hlater u hu v (by simp)

end Sweep

/-! ## An evaluation -/

namespace Handled

/-- What was reported of the instance under `id`, in order. -/
def reports (x : Handled) (id : String) : List Instance := x.round.processed.filter (·.id == id)

/-- The reports of it that were sent. -/
def alerts (x : Handled) (id : String) : List Instance := x.sent.filter (·.id == id)

/-- Whether it was dropped as stale. -/
def evicts (x : Handled) (id : String) : Bool := x.round.stale.any (·.id == id)

end Handled

theorem Instance.sentIn_eq {sent : List Instance} {k : RuleKey} {id : String}
    (h : ∀ i ∈ sent, i.ruleKey = k) (before : Option Moment) :
    sentIn sent k id before =
      ((sent.filter (·.id == id)).getLast?.map (·.lastEvaluation)).or before := by
  induction sent using List.reverseRecOn with
  | nil => rfl
  | append_singleton sent i ih =>
      have hbefore := ih fun j hj => h j (List.mem_append_left _ hj)
      have hkey : i.ruleKey = k := h i (by simp)
      unfold sentIn at hbefore ⊢
      rw [List.foldl_append, hbefore, List.filter_append]
      by_cases hid : i.id = id
      · simp [hkey, hid]
      · simp [hid]

namespace Cache

variable {settings : StateSettings} {c c' : Cache} {f : Finding} {x : Handled} {id : String}
  {b : Instance}

theorem filed_empty (k : RuleKey) : RuleInstances.Filed (({} : Cache).ofRule k) k := by
  intro id i hi
  cases (show none = some i from hi)

/-- The sweep of an evaluation. -/
def sweepOf (settings : StateSettings) (p : TransitionPolicy) (c : Cache) (f : Finding) : Sweep :=
  Sweep.run f.rule f.extra p (settings.historyFor f.rule) (c.ofRule f.rule.key) f.verdicts

theorem sweep_of_handle (h : c.handle? settings f = some (x, c')) :
    ∃ p kept, settings.policy? = some p ∧ (c.sweepOf settings p f).failed = false ∧
      x.round.processed = (c.sweepOf settings p f).processed ∧
      splitStale? f.now f.rule settings.staleMultiplier (c.sweepOf settings p f).seen
        (c.sweepOf settings p f).instances = some (x.round.stale, kept) ∧
      c' = (c.setRule f.rule.key kept).markSent x.sent := by
  obtain ⟨swept, hround, -, rfl⟩ := handle?_eq_some_iff.1 h
  obtain ⟨p, kept, hp, hs, hprocessed, -, hsplit, rfl⟩ := split_of_round hround
  exact ⟨p, kept, hp, hs, hprocessed, hsplit, rfl⟩

/-- The reports are those of the sweep. -/
theorem reports_of_handle (h : c.handle? settings f = some (x, c')) :
    ∃ p, settings.policy? = some p ∧ (c.sweepOf settings p f).failed = false ∧
      ∀ id, x.reports id = (c.sweepOf settings p f).reports id := by
  obtain ⟨p, -, hp, hs, hprocessed, -⟩ := sweep_of_handle h
  refine ⟨p, hp, hs, fun id => ?_⟩
  unfold Handled.reports
  rw [hprocessed]
  rfl

/-- The alerts are the reports that are due. -/
theorem alerts_of_handle (h : c.handle? settings f = some (x, c')) (id : String) :
    x.alerts id =
      (x.reports id).filter fun i => i.needsSending? settings.resendDelay == some true := by
  obtain ⟨-, -, hdue, -⟩ := handle?_eq_some_iff.1 h
  unfold Handled.alerts Handled.reports
  rw [Alert.eq_filter_of_due? hdue, List.filter_filter, List.filter_filter]
  exact List.filter_congr fun i _ => Bool.and_comm _ _

/-- An evaluation with an answer has one for each of its reports. -/
theorem isSome_needsSending?_of_handle (h : c.handle? settings f = some (x, c'))
    (hb : b ∈ x.reports id) : (b.needsSending? settings.resendDelay).isSome = true := by
  obtain ⟨-, -, hdue, -⟩ := handle?_eq_some_iff.1 h
  exact Alert.isSome_needsSending?_of_due? hdue (List.mem_filter.1 hb).1

/-- A report is judged by when the entry there was at first was last sent. -/
theorem report_of_handle (hc : (c.ofRule f.rule.key).Filed f.rule.key)
    (h : c.handle? settings f = some (x, c')) (hb : b ∈ x.reports id) :
    b.FiledAs f.rule.key id ∧ b.sentAt = (c.get? f.rule.key id).bind (·.sentAt) := by
  obtain ⟨p, -, hs, hreports⟩ := reports_of_handle h
  rw [hreports] at hb
  obtain ⟨us, -, -, hrun, hentry⟩ := Sweep.exists_entry_of_mem_reports hs hc hb
  exact ⟨Sweep.filed_run hrun hc id b hentry, Sweep.sentAt_run hrun hentry⟩

/-- A report is sent if it is resolved, or if it is active and the delay is over since the
entry there was at first was sent. -/
theorem mem_alerts_iff (hc : (c.ofRule f.rule.key).Filed f.rule.key)
    (h : c.handle? settings f = some (x, c')) :
    b ∈ x.alerts id ↔ b ∈ x.reports id ∧ (b.resolved = true ∨ b.status.isActive = true ∧
      ∀ last, (c.get? f.rule.key id).bind (·.sentAt) = some last →
        last.nanos + settings.resendDelay.displacement ≤ b.lastEvaluation.nanos) := by
  rw [alerts_of_handle h, List.mem_filter, beq_iff_eq]
  refine and_congr_right fun hb => ?_
  obtain ⟨-, hsent⟩ := report_of_handle hc h hb
  obtain ⟨now, hnow⟩ := Option.isSome_iff_exists.1 (isSome_needsSending?_of_handle h hb)
  rw [← hsent, ← Instance.needsSending?_eq_some_iff hnow, hnow, Option.some.injEq]

/-- The stale instances that no verdict named are dropped. -/
theorem evicts_iff (id : String) {p : TransitionPolicy} {kept : RuleInstances}
    (hfiled : RuleInstances.Filed (c.sweepOf settings p f).instances f.rule.key)
    (hsplit : splitStale? f.now f.rule settings.staleMultiplier (c.sweepOf settings p f).seen
      (c.sweepOf settings p f).instances = some (x.round.stale, kept)) :
    x.evicts id = true ↔ ∃ i, (c.sweepOf settings p f).instances.find? id = some i ∧
      (c.sweepOf settings p f).seen.contains id = false ∧
      i.isStale? f.now f.rule settings.staleMultiplier = some true := by
  unfold Handled.evicts
  rw [List.any_eq_true]
  constructor
  · rintro ⟨i, hi, hid⟩
    obtain ⟨id', hknown, hstale⟩ := (mem_of_splitStale? hsplit i).1 hi
    obtain rfl : id' = id := (hfiled id' i hknown).id.symm.trans (beq_iff_eq.1 hid)
    exact ⟨i, hknown, hstale⟩
  · rintro ⟨i, hknown, hstale⟩
    exact ⟨i, (mem_of_splitStale? hsplit i).2 ⟨id, hknown, hstale⟩,
      beq_iff_eq.2 (hfiled id i hknown).id⟩

/-- What is dropped is not reported. -/
theorem reports_eq_nil_of_evicts (hc : (c.ofRule f.rule.key).Filed f.rule.key)
    (h : c.handle? settings f = some (x, c')) (hevicts : x.evicts id = true) :
    x.reports id = [] := by
  obtain ⟨p, kept, -, hs, hprocessed, hsplit, -⟩ := sweep_of_handle h
  obtain ⟨i, -, hunseen, -⟩ := (evicts_iff id (Sweep.filed_run hs hc) hsplit).1 hevicts
  rw [sweepOf, Sweep.seen_run hs] at hunseen
  refine List.eq_nil_iff_forall_not_mem.2 fun b hb => ?_
  unfold Handled.reports at hb
  rw [hprocessed] at hb
  obtain ⟨us, hus, ⟨v, hv, hnamed⟩, -⟩ := Sweep.exists_entry_of_mem_reports hs hc hb
  rw [← hnamed, List.contains_iff_mem.2 (List.mem_map_of_mem (hus.subset hv))] at hunseen
  cases hunseen

theorem ruleKey_of_mem_sent (hc : (c.ofRule f.rule.key).Filed f.rule.key)
    (h : c.handle? settings f = some (x, c')) (hb : b ∈ x.sent) : b.ruleKey = f.rule.key := by
  have halert : b ∈ x.alerts b.id := List.mem_filter.2 ⟨hb, beq_self_eq_true _⟩
  exact (report_of_handle hc h ((mem_alerts_iff hc h).1 halert).1).1.ruleKey

/-- **The entry after an evaluation** is the last report, or what there was if nothing was
reported, and carries the date of the last alert. -/
theorem get?_handle (hc : (c.ofRule f.rule.key).Filed f.rule.key)
    (h : c.handle? settings f = some (x, c')) (id : String) :
    c'.get? f.rule.key id =
      if x.evicts id then none
      else ((x.reports id).getLast?.or (c.get? f.rule.key id)).map fun i =>
        { i with sentAt := ((x.alerts id).getLast?.map (·.lastEvaluation)).or i.sentAt } := by
  have hkeys : ∀ i ∈ x.sent, i.ruleKey = f.rule.key := fun i hi => ruleKey_of_mem_sent hc h hi
  obtain ⟨p, kept, -, hs, hprocessed, hsplit, rfl⟩ := sweep_of_handle h
  have hevicts := evicts_iff id (Sweep.filed_run hs hc) hsplit
  have hentry : (c.sweepOf settings p f).instances.find? id =
      (x.reports id).getLast?.or (c.get? f.rule.key id) := by
    unfold Handled.reports
    rw [hprocessed]
    exact Sweep.find?_run_eq_getLast? id hs hc
  rw [get?_markSent, get?_setRule, if_pos rfl, find?_of_splitStale? hsplit, ← hentry]
  cases hknown : (c.sweepOf settings p f).instances.find? id with
  | none => simp
  | some i =>
      rw [hknown] at hevicts
      by_cases hgone : x.evicts id = true
      · obtain ⟨j, hj, hunseen, hstale⟩ := hevicts.1 hgone
        obtain rfl := Option.some.inj hj
        rw [if_pos hgone, Option.filter_some, hunseen, hstale]
        rfl
      · have hkept : ((c.sweepOf settings p f).seen.contains id ||
            i.isStale? f.now f.rule settings.staleMultiplier != some true) = true := by
          by_contra hno
          rw [Bool.not_eq_true, Bool.or_eq_false_iff, bne_eq_false_iff_eq] at hno
          exact hgone (hevicts.2 ⟨i, rfl, hno⟩)
        rw [if_neg hgone, Option.filter_some, if_pos hkept, Option.map_some,
          Instance.sentIn_eq hkeys]
        rfl

theorem exists_of_get?_handle (hc : (c.ofRule f.rule.key).Filed f.rule.key)
    (h : c.handle? settings f = some (x, c')) {i' : Instance}
    (hi' : c'.get? f.rule.key id = some i') :
    ∃ i sentAt, (x.reports id).getLast?.or (c.get? f.rule.key id) = some i ∧
      i' = { i with sentAt } := by
  rw [get?_handle hc h] at hi'
  split at hi'
  · cases hi'
  obtain ⟨i, hi, rfl⟩ := Option.map_eq_some_iff.1 hi'
  exact ⟨i, _, hi, rfl⟩

theorem filed_handle (hc : (c.ofRule f.rule.key).Filed f.rule.key)
    (h : c.handle? settings f = some (x, c')) :
    (c'.ofRule f.rule.key).Filed f.rule.key := by
  intro id i' hi'
  obtain ⟨i, sentAt, hi, rfl⟩ := exists_of_get?_handle hc h hi'
  suffices hfiled : i.FiledAs f.rule.key id from ⟨hfiled.ruleKey, hfiled.id, hfiled.normal⟩
  rcases Option.or_eq_some_iff.1 hi with hlast | ⟨-, hold⟩
  · exact (report_of_handle hc h (List.mem_of_getLast? hlast)).1
  · exact hc id i hold

/-- Entries that were there before the verdicts make reports in order of time. -/
theorem inOrder_reports_of_handle (hc : (c.ofRule f.rule.key).Filed f.rule.key)
    (h : c.handle? settings f = some (x, c')) (hvs : f.verdicts.Pairwise fun u v => u.time ≤ v.time)
    (hold : ∀ i, c.get? f.rule.key id = some i → ∀ v ∈ f.verdicts, i.lastEvaluation ≤ v.time) :
    Instance.InOrder (x.reports id) := by
  obtain ⟨p, -, hs, hreports⟩ := reports_of_handle h
  rw [hreports]
  exact Sweep.inOrder_reports hs hc hvs hold

theorem date_of_mem_reports (hc : (c.ofRule f.rule.key).Filed f.rule.key)
    (h : c.handle? settings f = some (x, c')) (hb : b ∈ x.reports id) :
    (∃ old, c.get? f.rule.key id = some old ∧ b.lastEvaluation = old.lastEvaluation) ∨
      ∃ v ∈ f.verdicts, b.lastEvaluation = v.time := by
  obtain ⟨p, -, hs, hreports⟩ := reports_of_handle h
  rw [hreports] at hb
  exact Sweep.date_of_mem_reports hs hc hb

end Cache

end Vigil
