import Vigil.Proofs.Config.Validity
import Vigil.Proofs.Engine.Tick

/-!
# Cadence

Where the settings are valid and fit the numbers the engine computes with
(`Config.Paced`), a rule is due on a tick if its interval, raised to the minimum, is a
positive multiple of the base and that multiple divides the number of the tick
(`SchedulerSettings.Schedules`). A tick sends exactly the evaluations of the rules that
are due, each once and in the order of their keys (`System.tick_cadenced`). On a tick
that starts with a base interval, due means that the interval divides the time.
-/

namespace Vigil

/-! ## Settings -/

theorem signedSeconds_of_lt {n : Nat} (h : n < 1 <<< 63) : signedSeconds n = n := by
  unfold signedSeconds
  refine Int.bmod_eq_of_le ?_ ?_
  · omega
  · omega

/-- Valid settings with lengths that fit a signed number. -/
structure Config.Paced (c : Config) : Prop where
  valid : c.validate = .ok c
  base_lt : c.scheduler.baseIntervalSeconds < 1 <<< 63
  min_lt : c.scheduler.minIntervalSeconds < 1 <<< 63

namespace Config.Paced

variable {c : Config}

theorem checked (hc : c.Paced) : c.Checked := (validate_eq_ok_iff.1 hc.valid).1

theorem base_eq (hc : c.Paced) : c.scheduler.base = c.scheduler.baseIntervalSeconds := by
  unfold SchedulerSettings.base SchedulerSettings.tickSeconds
  rw [Nat.max_eq_left hc.checked.base_pos, signedSeconds_of_lt hc.base_lt]

theorem minInterval_eq (hc : c.Paced) :
    c.scheduler.minInterval = c.scheduler.minIntervalSeconds :=
  signedSeconds_of_lt hc.min_lt

end Config.Paced

/-! ## Due rules -/

namespace SchedulerSettings

/-- The interval at which a rule is evaluated. -/
def effective (settings : SchedulerSettings) (r : Rule) : Int :=
  max r.intervalSeconds settings.minIntervalSeconds

/-- The interval is a positive number of base intervals. -/
def Fits (settings : SchedulerSettings) (r : Rule) : Prop :=
  0 < settings.effective r ∧ (settings.baseIntervalSeconds : Int) ∣ settings.effective r

/-- Ticks count base intervals, and a rule is due once in as many as its interval has. -/
def Schedules (settings : SchedulerSettings) (r : Rule) (t : Moment) : Prop :=
  settings.Fits r ∧ settings.effective r / settings.baseIntervalSeconds ∣
    t.nanos / (nanosPerSecond * settings.baseIntervalSeconds)

end SchedulerSettings

namespace Cadence

theorem raise_eq (min : Int) (r : Rule) :
    raise min r = { r with intervalSeconds := max r.intervalSeconds min } := by
  unfold raise
  split
  · rename_i h
    rw [Int.max_eq_left h]
  · rename_i h
    rw [Int.max_eq_right (by omega)]

theorem frequency_eq_ok_iff {interval min base f : Int} (hbase : 0 < base) :
    frequency (max interval min) min base = .ok f ↔
      (0 < max interval min ∧ base ∣ max interval min) ∧ f = max interval min / base := by
  have hagain : max (max interval min) min = max interval min := by omega
  unfold frequency
  rw [hagain]
  generalize max interval min = interval
  dsimp only
  split
  · rename_i h
    constructor
    · exact nofun
    · rintro ⟨⟨hpos, hdvd⟩, -⟩
      have hmod := Int.emod_eq_zero_of_dvd hdvd
      omega
  · rename_i h
    rw [not_or, not_or, not_not] at h
    constructor
    · intro hf
      exact ⟨⟨by omega, Int.dvd_of_emod_eq_zero h.2.2⟩, (Except.ok.inj hf).symm⟩
    · rintro ⟨-, rfl⟩
      rfl

theorem isDue_iff {tick f : Int} (hf : 0 < f) : isDue tick f = true ↔ f ∣ tick := by
  unfold isDue
  rw [decide_eq_true hf, Bool.true_and, beq_iff_eq]
  exact Int.dvd_iff_emod_eq_zero.symm

theorem tickNumber_eq (t : Moment) (base : Int) :
    tickNumber t base = t.nanos / (nanosPerSecond * base) := by
  unfold tickNumber Moment.seconds
  exact Int.ediv_ediv_of_nonneg (by decide)

end Cadence

namespace System

variable {c : Config} {s : System}

/-- **The evaluation of a due rule.** It is of the tick and of the rule as it is, but for
the interval. -/
theorem evaluation?_eq_some_iff_schedules (hc : c.Paced) {folders : Table String String}
    {t : Moment} {r : Rule} {e : Evaluation} :
    evaluation? c.scheduler folders t r = some e ↔
      c.scheduler.Schedules r t ∧
        e = ⟨t, { r with intervalSeconds := c.scheduler.effective r },
          folderOf c.scheduler folders r⟩ := by
  have hbase : (0 : Int) < c.scheduler.baseIntervalSeconds := by
    have := hc.checked.base_pos
    omega
  rw [evaluation?_eq_some_iff, Cadence.raise_eq, hc.base_eq, hc.minInterval_eq,
    Cadence.tickNumber_eq]
  refine and_congr ?_ Iff.rfl
  constructor
  · rintro ⟨f, hf, hdue⟩
    obtain ⟨hfits, rfl⟩ := (Cadence.frequency_eq_ok_iff hbase).1 hf
    have hpos := Int.ediv_pos_of_pos_of_dvd hfits.1 (Int.le_of_lt hbase) hfits.2
    exact ⟨hfits, (Cadence.isDue_iff hpos).1 hdue⟩
  · rintro ⟨hfits, hdvd⟩
    have hpos := Int.ediv_pos_of_pos_of_dvd hfits.1 (Int.le_of_lt hbase) hfits.2
    exact ⟨_, (Cadence.frequency_eq_ok_iff hbase).2 ⟨hfits, rfl⟩, (Cadence.isDue_iff hpos).2 hdvd⟩

/-- The tick of `s` at `t` with these rules does what the settings say. -/
structure Cadenced (settings : SchedulerSettings) (s : System) (rules : RuleSet) (t : Moment)
    (report : TickReport) (s' : System) : Prop where
  /-- The rules that are due, and no others. -/
  scheduled_iff : ∀ k, k ∈ report.scheduled.map (·.key) ↔
    ∃ r, rules.rules.find? k = some r ∧ settings.Schedules r t
  /-- In the order of their keys, and each once. -/
  sorted : report.scheduled.Pairwise fun a b => compare a.key b.key = .lt
  /-- Each one is sent to its live routine. -/
  dispatched : ∃ ds, s'.dispatches = s.dispatches ++ ds ∧
    ds.map (·.evaluation.rule.key) = report.scheduled.map (·.key) ∧
    ∀ d ∈ ds, ∃ r, rules.rules.find? d.evaluation.rule.key = some r ∧
      d.evaluation = ⟨t, { r with intervalSeconds := settings.effective r },
        folderOf settings rules.folders r⟩ ∧
      s'.registry.find? r.key = some d.worker

theorem mem_all_iff {rules : RuleSet} (hk : rules.Keyed) {r : Rule} :
    r ∈ rules.all ↔ rules.rules.find? r.key = some r := by
  constructor
  · intro hr
    obtain ⟨⟨k, r'⟩, he, rfl⟩ := List.mem_map.1 hr
    have hfind := Table.find?_eq_some_iff.2 he
    rw [hk k r' hfind]
    exact hfind
  · intro hr
    exact List.mem_map_of_mem (Table.find?_eq_some_iff.1 hr)

theorem tick_cadenced (hc : c.Paced) (hs : s.settings = c.scheduler) (t : Moment)
    (listing : Option RuleSet) {rules : RuleSet} (hrules : listing.getD s.rules = rules)
    (hk : rules.Keyed) :
    s.Cadenced c.scheduler rules t (s.tick t listing).1 (s.tick t listing).2 := by
  obtain ⟨ds, hds, htick⟩ := tick_eq hrules hk t rfl
  have hscheduled : (s.tick t listing).1.scheduled = (due c.scheduler rules t).map
      fun p => ⟨p.1.rule.key, p.1.rule.version, p.2⟩ := by
    subst hrules
    rw [← hs]
    rfl
  have hkeys : (s.tick t listing).1.scheduled.map (·.key) =
      (due c.scheduler rules t).map (·.1.rule.key) := by
    rw [hscheduled, List.map_map]
    rfl
  have hdue : ∀ e, e ∈ rules.all.filterMap (evaluation? c.scheduler rules.folders t) ↔
      ∃ r ∈ rules.all, c.scheduler.Schedules r t ∧
        e = ⟨t, { r with intervalSeconds := c.scheduler.effective r },
          folderOf c.scheduler rules.folders r⟩ := by
    intro e
    rw [List.mem_filterMap]
    exact exists_congr fun r => and_congr_right fun _ => evaluation?_eq_some_iff_schedules hc
  have hevaluations : ds.map (·.evaluation) =
      rules.all.filterMap (evaluation? c.scheduler rules.folders t) := by
    rw [hds.evaluations, ← fst_due, ← hs]
  constructor
  · intro k
    rw [hkeys, map_key_due, List.mem_map]
    constructor
    · rintro ⟨e, he, rfl⟩
      obtain ⟨r, hr, hschedules, rfl⟩ := (hdue e).1 he
      exact ⟨r, (mem_all_iff hk).1 hr, hschedules⟩
    · rintro ⟨r, hr, hschedules⟩
      obtain rfl := hk k r hr
      exact ⟨_, (hdue _).2 ⟨r, (mem_all_iff hk).2 hr, hschedules, rfl⟩, rfl⟩
  · have hsorted := sorted_due hk c.scheduler t
    rw [← hkeys] at hsorted
    exact List.pairwise_map.1 hsorted
  · refine ⟨ds, ?_, ?_, ?_⟩
    · rw [htick, delete_eq]
    · rw [hkeys, map_key_due, ← hevaluations, List.map_map]
      rfl
    · intro d hd
      have hmem : d.evaluation ∈ ds.map (·.evaluation) := List.mem_map_of_mem hd
      rw [hevaluations] at hmem
      obtain ⟨r, hr, -, he⟩ := (hdue _).1 hmem
      have hfind := (mem_all_iff hk).1 hr
      have hkey : d.evaluation.rule.key = r.key := by
        rw [he]
        rfl
      refine ⟨r, hkey ▸ hfind, he, ?_⟩
      have hstays : r.key ∉ s.gone rules := by
        intro hgone
        have hcontains := (mem_gone_iff.1 hgone).2
        rw [Table.contains, hfind] at hcontains
        cases hcontains
      rw [htick, find?_delete, if_neg hstays, ← hkey]
      exact hds.live d hd

end System

/-! ## Ticks at the start of a base interval -/

namespace SchedulerSettings

variable {c : Config}

/-- A rule whose interval is no longer than a positive minimum can be scheduled. -/
theorem fits_of_le_min (hc : c.Paced) (hmin : 0 < c.scheduler.minIntervalSeconds) {r : Rule}
    (hr : r.intervalSeconds ≤ c.scheduler.minIntervalSeconds) : c.scheduler.Fits r := by
  unfold Fits effective
  rw [Int.max_eq_right hr]
  exact ⟨by omega, Int.natCast_dvd_natCast.2 hc.checked.base_dvd_min⟩

/-- On a tick that starts with a base interval a rule is due if its interval divides the
time. -/
theorem schedules_iff_dvd (hc : c.Paced) {r : Rule} (hr : c.scheduler.Fits r) {t : Moment} {m : Int}
    (ht : t.nanos = m * (nanosPerSecond * c.scheduler.baseIntervalSeconds)) :
    c.scheduler.Schedules r t ↔ nanosPerSecond * c.scheduler.effective r ∣ t.nanos := by
  have hbase : (c.scheduler.baseIntervalSeconds : Int) ≠ 0 := by
    have := hc.checked.base_pos
    omega
  have hnanos : (nanosPerSecond : Int) ≠ 0 := by decide
  have hunit : (nanosPerSecond * c.scheduler.baseIntervalSeconds : Int) ≠ 0 :=
    Int.mul_ne_zero hnanos hbase
  obtain ⟨f, hf⟩ := hr.2
  unfold Schedules
  rw [ht, Int.mul_ediv_cancel _ hunit, hf, Int.mul_ediv_cancel_left _ hbase,
    ← Int.mul_assoc, Int.mul_comm m]
  constructor
  · rintro ⟨-, hdvd⟩
    exact Int.mul_dvd_mul_left _ hdvd
  · intro hdvd
    exact ⟨hr, Int.dvd_of_mul_dvd_mul_left hunit hdvd⟩

end SchedulerSettings

end Vigil
