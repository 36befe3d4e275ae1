import Mathlib.Data.List.Nodup
import Vigil.Proofs.Round.Ledger
import Vigil.Proofs.Round.Resolutions

/-!
# The resend delay

An active instance is sent again when the delay since its last alert is over, and not
before: alerts of different evaluations are that far apart (`Cache.alerts_apart`). The
delay counts from every alert, that of a resolution too. So an instance that fires again
soon after it was resolved is not announced at once (`Cache.announced_iff`).
-/

namespace Vigil

namespace Sweep

variable {r : Rule} {extra : Labels} {p : TransitionPolicy} {history : Nat} {rs : RuleInstances}
  {vs : List Verdict}

/-- An instance is reported no more often than it is named. -/
theorem length_reports_le (h : (run r extra p history rs vs).failed = false)
    (hrs : rs.Filed r.key) (id : String) :
    ((run r extra p history rs vs).reports id).length ≤ (vs.map (r.idOf extra)).count id := by
  induction vs using List.reverseRecOn with
  | nil => exact Nat.le_refl 0
  | append_singleton vs v ih =>
      have hold := ih (run_snoc_cases h).1
      rw [reports_run_snoc id h hrs, List.map_append, List.count_append, List.length_append]
      refine Nat.add_le_add hold ?_
      split
      · rename_i hid
        simp only [List.map_cons, List.map_nil, hid, List.count_singleton_self]
        cases (run r extra p history rs (vs ++ [v])).instances.find? id <;> simp
      · exact Nat.zero_le _

end Sweep

namespace Cache

variable {settings : StateSettings} {k : RuleKey} {c c' c'' : Cache} {f : Finding} {x : Handled}
  {fs : List Finding} {xs : List Handled} {id : String}

/-- An evaluation whose verdicts name different instances sends each at most once. -/
theorem length_alerts_le_one (hc : (c.ofRule f.rule.key).Filed f.rule.key)
    (h : c.handle? settings f = some (x, c'))
    (hdistinct : (f.verdicts.map (f.rule.idOf f.extra)).Nodup) (id : String) :
    (x.alerts id).length ≤ 1 := by
  obtain ⟨p, -, hs, hreports⟩ := reports_of_handle h
  calc (x.alerts id).length ≤ (x.reports id).length := by
        rw [alerts_of_handle h]
        exact List.length_filter_le _ _
    _ ≤ (f.verdicts.map (f.rule.idOf f.extra)).count id := by
        rw [hreports]
        exact Sweep.length_reports_le hs hc id
    _ ≤ 1 := List.nodup_iff_count_le_one.1 hdistinct id

/-- **The resend delay.** Over a run of evaluations in order of time, an alert about an
active instance comes at least the delay after every alert about it of an earlier
evaluation, unless the instance was dropped in between. Within one evaluation an instance
is sent once if no other verdict leads to it. -/
theorem alerts_apart (hdelay : settings.resendDelay.nanos ≤ Span.longestDisplacement)
    (hc : (c.ofRule k).Filed k) (hfs : ∀ f ∈ fs, f.rule.key = k) (ht : c.Chronological k id fs)
    (h : c.handleAll? settings fs = some (xs, c')) :
    (∀ before x between y after, xs = before ++ x :: between ++ y :: after →
      (∀ z ∈ between, z.evicts id = false) →
      ∀ a ∈ x.alerts id, ∀ b ∈ y.alerts id, b.resolved = false →
        a.lastEvaluation.nanos + (settings.resendDelay.nanos : Int) ≤ b.lastEvaluation.nanos) ∧
    List.Forall₂ (fun f x => (f.verdicts.map (f.rule.idOf f.extra)).Nodup →
      (x.alerts id).length ≤ 1) fs xs := by
  constructor
  · rintro before x between y after rfl hkept a ha b hb hactive
    obtain ⟨earlier, f, later, c₁, c₂, rfl, hbefore, hy, -⟩ := handleAll?_split h
    have hkeys : ∀ g ∈ earlier, g.rule.key = k := fun g hg => hfs g (List.mem_append_left _ hg)
    obtain rfl := hfs f (by simp)
    obtain ⟨last, hlast, hle⟩ := exists_lastSent hc hkeys ht.left hbefore hkept ha
    obtain ⟨-, hresolved | ⟨-, hdue⟩⟩ :=
      (mem_alerts_iff (sentAt_handleAll hc hkeys hbefore).1 hy).1 hb
    · cases hactive.symm.trans hresolved
    have hover := hdue last hlast
    rw [Span.displacement, if_pos hdelay] at hover
    exact Int.le_trans (Int.add_le_add_right hle _) hover
  · clear ht
    induction fs generalizing c xs with
    | nil =>
        cases h
        exact List.Forall₂.nil
    | cons f fs ih =>
        obtain ⟨x, swept, xs, hx, hxs, rfl⟩ := handleAll?_cons_eq_some_iff.1 h
        obtain rfl := hfs f List.mem_cons_self
        exact List.Forall₂.cons (fun hdistinct => length_alerts_le_one hc hx hdistinct id)
          (ih (filed_handle hc hx) (fun g hg => hfs g (List.mem_cons_of_mem f hg)) hxs)

theorem key_of_mem_verdictEach {statuses : List Status} {f : Finding}
    (hf : f ∈ verdictEach statuses) : f.rule.key = ({} : Rule).key := by
  obtain ⟨_, -, rfl⟩ := List.mem_map.1 hf
  rfl

/-- A delay of ten seconds. -/
def brisk : StateSettings := { resendDelaySeconds := 10 }

theorem alerts_apart_brisk :
    brisk.resendDelay.nanos ≤ Span.longestDisplacement ∧
      ∃ x y c' a b, ({} : Cache).handleAll? brisk (verdictEach [.alerting, .alerting]) =
          some ([x, y], c') ∧ a ∈ x.alerts soleId ∧ b ∈ y.alerts soleId ∧
        a.lastEvaluation.nanos + (brisk.resendDelay.nanos : Int) ≤ b.lastEvaluation.nanos ∧
        (y.alerts soleId).length ≤ 1 := by
  have hdelay : brisk.resendDelay.nanos ≤ Span.longestDisplacement := by decide
  have hordered : ((verdictEach [.alerting, .alerting]).flatMap (·.verdicts)).Pairwise
      fun u v => u.time ≤ v.time := by decide
  have hrun : (({} : Cache).handleAll? brisk (verdictEach [.alerting, .alerting])).map
      (fun y => y.1.map fun x => (x.alerts soleId).map fun a => a.resolved) =
        some [[false], [false]] := by decide +kernel
  obtain ⟨⟨xs, c'⟩, hxs, hsent⟩ := Option.map_eq_some_iff.1 hrun
  have ht : ({} : Cache).Chronological ({} : Rule).key soleId
      (verdictEach [.alerting, .alerting]) := chronological_empty hordered
  obtain ⟨hapart, honce⟩ :=
    alerts_apart hdelay (filed_empty _) (fun f => key_of_mem_verdictEach) ht hxs
  obtain ⟨x, y, rfl⟩ : ∃ x y, xs = [x, y] := List.length_eq_two.1 (by
    have := congrArg List.length hsent
    rwa [List.length_map] at this)
  obtain ⟨ha, hb⟩ : ((x.alerts soleId).map fun a => a.resolved) = [false] ∧
      ((y.alerts soleId).map fun a => a.resolved) = [false] := by simpa using hsent
  obtain ⟨a, ha, -⟩ := List.map_eq_singleton_iff.1 ha
  obtain ⟨b, hb, hactive⟩ := List.map_eq_singleton_iff.1 hb
  have ha' : a ∈ x.alerts soleId := ha ▸ List.mem_singleton_self a
  have hb' : b ∈ y.alerts soleId := hb ▸ List.mem_singleton_self b
  refine ⟨hdelay, x, y, c', a, b, hxs, ha', hb', ?_, ?_⟩
  · exact hapart [] x [] y [] rfl (fun z hz => by cases hz) a ha' b hb' hactive
  · obtain ⟨-, hrest⟩ := List.forall₂_cons.1 honce
    exact (List.forall₂_cons.1 hrest).1 (List.nodup_singleton _)

/-- A delay of whole seconds that is too long for a displacement. -/
def overlongDelay : StateSettings :=
  { resendDelaySeconds := 9223372036854776, resendMultiplier := 1 }

/-- Two hosts breach a rule that names a host of its own. -/
def twoHosts : Finding where
  rule := { labels := (∅ : Labels).insert "host" "all" }
  verdicts := ["a", "b"].map fun host =>
    { labels := (∅ : Labels).insert "host" host, status := .alerting, time := .epoch }
  extra := ∅
  now := .epoch

/-- An overlong delay does not delay. And verdicts about different hosts lead to one
instance if the rule names the host: it is sent for each of them. -/
theorem alerts_not_apart :
    (∃ xs c', ({} : Cache).handleAll? overlongDelay (verdictEach [.alerting, .alerting]) =
        some (xs, c') ∧
      (Handled.alerted soleId xs).map (fun a => (a.lastEvaluation, a.status)) =
        [(.epoch, .alerting), (⟨10 * nanosPerSecond⟩, .alerting)] ∧
      xs.map (·.evicts soleId) = [false, false] ∧
      ¬ Moment.epoch.nanos + (overlongDelay.resendDelay.nanos : Int) ≤ 10 * nanosPerSecond) ∧
    ∃ x c', ({} : Cache).handle? {} twoHosts = some (x, c') ∧
      (twoHosts.verdicts.map (·.labels)).Nodup ∧
      (x.sent.map fun a => (a.id, a.status)) =
        [(twoHosts.rule.labels.id, .alerting), (twoHosts.rule.labels.id, .alerting)] := by
  constructor
  · have hrun : (({} : Cache).handleAll? overlongDelay (verdictEach [.alerting, .alerting])).map
        (fun y => ((Handled.alerted soleId y.1).map fun a => (a.lastEvaluation, a.status),
          y.1.map (·.evicts soleId))) =
          some ([(.epoch, .alerting), (⟨10 * nanosPerSecond⟩, .alerting)], [false, false]) := by
      decide +kernel
    obtain ⟨⟨xs, c'⟩, hxs, hsent⟩ := Option.map_eq_some_iff.1 hrun
    obtain ⟨hsent, hkept⟩ := Prod.mk.inj hsent
    exact ⟨xs, c', hxs, hsent, hkept, by decide⟩
  · have hrun : (({} : Cache).handle? {} twoHosts).map
        (fun y => y.1.sent.map fun a => (a.id, a.status)) =
          some [(twoHosts.rule.labels.id, .alerting), (twoHosts.rule.labels.id, .alerting)] := by
      decide +kernel
    obtain ⟨⟨x, c'⟩, hx, hsent⟩ := Option.map_eq_some_iff.1 hrun
    exact ⟨x, c', hx, by decide, hsent⟩

/-- **New alerts.** An evaluation that leaves an instance active that was not so before
sends an alert about it exactly if the delay is over since the last alert, be it that of
a resolution. -/
theorem announced_iff (hc : (c.ofRule k).Filed k) (hfs : ∀ g ∈ fs ++ [f], g.rule.key = k)
    (ht : c.Chronological k id (fs ++ [f])) (hrun : c.handleAll? settings fs = some (xs, c'))
    (h : c'.handle? settings f = some (x, c'')) {i : Instance}
    (hbefore : ∀ old, c'.get? k id = some old → old.status = .normal ∨ old.status = .pending)
    (hafter : c''.get? k id = some i) (hactive : i.status.isActive = true) :
    (∃ a ∈ x.alerts id, a.status.isActive = true) ↔
      ∀ last, Handled.lastSent id ((c.get? k id).bind (·.sentAt)) xs = some last →
        last.nanos + settings.resendDelay.displacement ≤ i.lastEvaluation.nanos := by
  have hkeys : ∀ g ∈ fs, g.rule.key = k := fun g hg => hfs g (List.mem_append_left _ hg)
  obtain ⟨hfiled, hsentAt⟩ := sentAt_handleAll hc hkeys hrun
  obtain ⟨hverdicts, hentry⟩ := chronological_of_handleAll hkeys hrun ht
  obtain rfl := hfs f (by simp)
  rw [← hsentAt]
  -- the instance was reported, for its old entry was not active
  obtain ⟨j, sentAt, hj, rfl⟩ := exists_of_get?_handle hfiled h hafter
  have hlast : (x.reports id).getLast? = some j := by
    rcases Option.or_eq_some_iff.1 hj with hlast | ⟨-, hold⟩
    · exact hlast
    · have hstatus : j.status.isActive = true := hactive
      rcases hbefore j hold with hnormal | hpending
      · rw [hnormal] at hstatus
        cases hstatus
      · rw [hpending] at hstatus
        cases hstatus
  constructor
  · rintro ⟨a, ha, hfiring⟩ last hsent
    obtain ⟨hreport, hdue⟩ := (mem_alerts_iff hfiled h).1 ha
    have hunresolved := (report_of_handle hfiled h hreport).1.resolved_eq_false hfiring
    rcases hdue with hresolved | ⟨-, hdue⟩
    · cases hunresolved.symm.trans hresolved
    have hordered : Instance.InOrder (x.reports id) :=
      inOrder_reports_of_handle hfiled h (by simpa using hverdicts) (by simpa using hentry)
    have hle := hordered.le_getLast hreport hlast
    exact Int.le_trans (hdue last hsent) hle
  · intro hdue
    exact ⟨j, (mem_alerts_iff hfiled h).2 ⟨List.mem_of_getLast? hlast, Or.inr ⟨hactive, hdue⟩⟩,
      hactive⟩

/-- The one instance before and after a breach that follows a resolution, and what is sent
about it. -/
def relapseOf (settings : StateSettings) : Option (Option Status × Option Status × List Status) :=
  (({} : Cache).handleAll? settings (verdictEach [.alerting, .normal])).bind fun (_, c') =>
    (c'.handle? settings (breachAt 20)).map fun (x, c'') =>
      ((c'.get? (breachAt 20).rule.key soleId).map (·.status),
        (c''.get? (breachAt 20).rule.key soleId).map (·.status), (x.alerts soleId).map (·.status))

theorem announced_iff_brisk :
    ∃ xs c' x c'', ({} : Cache).handleAll? brisk (verdictEach [.alerting, .normal]) =
        some (xs, c') ∧ c'.handle? brisk (breachAt 20) = some (x, c'') ∧
      (∀ old, c'.get? (breachAt 20).rule.key soleId = some old →
        old.status = .normal ∨ old.status = .pending) ∧
      ∃ i, c''.get? (breachAt 20).rule.key soleId = some i ∧ i.status.isActive = true ∧
        (∃ a ∈ x.alerts soleId, a.status.isActive = true) ∧
        ∀ last, Handled.lastSent soleId none xs = some last →
          last.nanos + brisk.resendDelay.displacement ≤ i.lastEvaluation.nanos := by
  have hrun : relapseOf brisk = some (some .normal, some .alerting, [.alerting]) := by
    decide +kernel
  obtain ⟨⟨xs, c'⟩, hxs, h⟩ := Option.bind_eq_some_iff.1 hrun
  obtain ⟨⟨x, c''⟩, hx, h⟩ := Option.map_eq_some_iff.1 h
  obtain ⟨hold, h⟩ := Prod.mk.inj h
  obtain ⟨hnew, hsent⟩ := Prod.mk.inj h
  have hbefore : ∀ old, c'.get? (breachAt 20).rule.key soleId = some old →
      old.status = .normal ∨ old.status = .pending := by
    intro old hknown
    rw [hknown] at hold
    exact Or.inl (Option.some.inj hold)
  obtain ⟨i, hafter, hstatus⟩ := Option.map_eq_some_iff.1 hnew
  have hactive : i.status.isActive = true := by rw [hstatus]; rfl
  have hordered : ((verdictEach [.alerting, .normal] ++ [breachAt 20]).flatMap
      (·.verdicts)).Pairwise fun u v => u.time ≤ v.time := by decide
  have hkeys : ∀ g ∈ verdictEach [.alerting, .normal] ++ [breachAt 20],
      g.rule.key = (breachAt 20).rule.key := by
    intro g hg
    rcases List.mem_append.1 hg with hg | hg
    · exact key_of_mem_verdictEach hg
    · rw [List.mem_singleton.1 hg]
  have hiff := announced_iff (filed_empty _) hkeys (chronological_empty hordered) hxs hx hbefore
    hafter hactive
  have halert : ∃ a ∈ x.alerts soleId, a.status.isActive = true := by
    obtain ⟨a, ha, hfiring⟩ := List.map_eq_singleton_iff.1 hsent
    exact ⟨a, ha ▸ List.mem_singleton_self a, by rw [hfiring]; rfl⟩
  exact ⟨xs, c', x, c'', hxs, hx, hbefore, i, hafter, hactive, halert, hiff.1 halert⟩

/-- With the default delay the resolution was sent too short a time before. -/
theorem relapse_unannounced :
    relapseOf {} = some (some .normal, some .alerting, []) := by
  decide +kernel

end Cache

end Vigil
