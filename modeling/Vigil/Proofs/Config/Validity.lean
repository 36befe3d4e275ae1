import Vigil.Config
import Vigil.Proofs.Instance.History
import Vigil.Proofs.Instance.LongerSpans

/-!
# What a valid configuration is good for

A configuration is valid if its counts are positive where they have to be and the minimum
interval is a multiple of the base interval (`Config.validate_eq_ok_iff`). No count has an upper
limit of its own, so the spans made of single counts are always there. The keep-alive is made of
two: the delay and its multiplier. It is a span as long as their product is one, and it is added
to an evaluation as long as the product is a displacement (`Config.spans_of_validate`).
-/

namespace Vigil

namespace Config

variable {c : Config}

/-- The checks that a valid configuration passes. -/
structure Checked (c : Config) : Prop where
  base_pos : 0 < c.scheduler.baseIntervalSeconds
  base_dvd_min : c.scheduler.baseIntervalSeconds ∣ c.scheduler.minIntervalSeconds
  maxAttempts_pos : 0 < c.scheduler.maxAttempts
  resendMultiplier_pos : 0 < c.state.resendMultiplier
  staleMultiplier_pos : 0 < c.state.staleMultiplier
  maxResults_pos : 0 < c.state.maxResultsPerInstance

theorem complaint?_eq_none_iff : c.complaint? = none ↔ c.Checked := by
  unfold complaint?
  dsimp only
  constructor
  · intro h
    split at h
    · cases h
    split at h
    · cases h
    split at h
    · cases h
    split at h
    · cases h
    split at h
    · cases h
    constructor
    · omega
    · exact Nat.dvd_of_mod_eq_zero (by omega)
    · omega
    · omega
    · omega
    · omega
  · rintro ⟨hbase, hmin, hattempts, hresend, hstale, hresults⟩
    have hmod := Nat.mod_eq_zero_of_dvd hmin
    rw [if_neg (by omega), if_neg (by omega), if_neg (by omega), if_neg (by omega),
      if_neg (by omega)]

theorem validate_eq_ok_iff {c' : Config} : c.validate = .ok c' ↔ c.Checked ∧ c' = c := by
  rw [← complaint?_eq_none_iff]
  unfold validate
  cases c.complaint? with
  | none => simp [eq_comm]
  | some detail => simp

/-- The counts of seconds are numbers of 64 bits, as any that can be read. -/
structure Sized (c : Config) : Prop where
  base_lt : c.scheduler.baseIntervalSeconds < 1 <<< 64
  resendDelay_lt : c.state.resendDelaySeconds < 1 <<< 64

end Config

/-! ## Seconds as spans -/

namespace Span

/-- The longest displacement in whole seconds. -/
def longestSeconds : Nat := 9223372036854775

theorem ofSeconds_lt_limit_iff {n : Nat} : (ofSeconds n).nanos < limit ↔ n < 1 <<< 64 := by
  simp only [ofSeconds, limit, nanosPerSecond]
  omega

theorem ofSeconds_le_longest_iff {n : Nat} :
    (ofSeconds n).nanos ≤ longestDisplacement ↔ n ≤ longestSeconds := by
  simp only [ofSeconds, longestDisplacement, longestSeconds, nanosPerSecond, nanosPerMilli]
  omega

/-- Seconds that are too many for a displacement count as none. -/
theorem displacement_ofSeconds (n : Nat) :
    (ofSeconds n).displacement = if n ≤ longestSeconds then ((ofSeconds n).nanos : Int) else 0 := by
  by_cases h : n ≤ longestSeconds
  · rw [if_pos h, displacement_of_le (ofSeconds_le_longest_iff.2 h)]
  · rw [if_neg h, displacement_of_lt (Nat.lt_of_not_le (mt ofSeconds_le_longest_iff.1 h))]

end Span

namespace StateSettings

/-- How many seconds an alert lasts past an evaluation. -/
def keepAliveSeconds (s : StateSettings) : Nat := s.resendDelaySeconds * s.resendMultiplier

theorem keepAlive?_eq (s : StateSettings) :
    s.keepAlive? =
      if s.keepAliveSeconds < 1 <<< 64 then some (.ofSeconds s.keepAliveSeconds) else none := by
  have hspan : (⟨s.resendDelay.nanos * s.resendMultiplier⟩ : Span) =
      .ofSeconds s.keepAliveSeconds :=
    congrArg Span.mk (Nat.mul_assoc nanosPerSecond s.resendDelaySeconds s.resendMultiplier)
  have hlimit : s.resendDelay.nanos * s.resendMultiplier < Span.limit ↔
      s.keepAliveSeconds < 1 <<< 64 := by
    rw [← Span.ofSeconds_lt_limit_iff, ← hspan]
  rw [keepAlive?, Span.times?, hspan]
  simp only [hlimit]

theorem isSome_keepAlive?_iff (s : StateSettings) :
    s.keepAlive?.isSome = true ↔ s.keepAliveSeconds < 1 <<< 64 := by
  rw [keepAlive?_eq]
  by_cases h : s.keepAliveSeconds < 1 <<< 64
  · rw [if_pos h]
    exact iff_of_true rfl h
  · rw [if_neg h]
    exact iff_of_false Bool.false_ne_true h

theorem keepAlive_of_policy?_eq {s : StateSettings} {p : TransitionPolicy}
    (h : s.policy? = some p) :
    p.keepAlive = .ofSeconds s.keepAliveSeconds := by
  obtain ⟨keepAlive, hkeepAlive, rfl⟩ := Option.map_eq_some_iff.1 h
  rw [keepAlive?_eq, Option.ite_none_right_eq_some] at hkeepAlive
  exact (Option.some.inj hkeepAlive.2).symm

end StateSettings

/-- A verdict that leaves an instance active has its alert end one keep-alive later. -/
theorem Instance.exists_end_of_moved {i after : Instance} {r : Rule} {v : Verdict}
    {p : TransitionPolicy} {t : Transition} (h : i.apply r v p = (after, .moved t))
    (hactive : after.status ≠ .normal) :
    ∃ ends, after.endsAt = some ends ∧ ends.nanos = v.time.nanos + p.keepAlive.displacement := by
  unfold apply at h
  split at h
  · cases h
  rename_i target htarget
  dsimp only at h
  split at h
  · cases h
  rename_i endsAt hends
  cases h
  have hnormal : target ≠ .normal := fun hnormal =>
    hactive ((entry_eq_normal_iff htarget).2 hnormal)
  cases target with
  | normal => exact absurd rfl hnormal
  | alerting | keep _ =>
      obtain ⟨ends, hafter, rfl⟩ := Option.map_eq_some_iff.1 hends
      exact ⟨ends, rfl, (Moment.shift?_eq_some_iff.1 hafter).1⟩

namespace Config

variable {c : Config}

/-- **The spans of a valid configuration.** The base interval and the delay are spans. The
keep-alive is one exactly if the product of delay and multiplier is, and it is added in full if
that is a displacement, and not at all otherwise. So if there is a delay, an instance that a
verdict leaves active has an alert that ends after the evaluation exactly if the product is a
displacement. -/
theorem spans_of_validate (h : c.validate = .ok c) (hsized : c.Sized) :
    (0 < c.scheduler.baseInterval.nanos ∧ c.scheduler.baseInterval.nanos < Span.limit) ∧
    c.state.resendDelay.nanos < Span.limit ∧
    (c.state.keepAlive?.isSome = true ↔ c.state.keepAliveSeconds < 1 <<< 64) ∧
    ∀ p, c.state.policy? = some p →
      p.keepAlive = .ofSeconds c.state.keepAliveSeconds ∧
      (p.keepAlive.displacement =
        if c.state.keepAliveSeconds ≤ Span.longestSeconds then (p.keepAlive.nanos : Int) else 0) ∧
      ∀ (i after : Instance) (r : Rule) (v : Verdict) (t : Transition),
        i.apply r v p = (after, .moved t) → after.status ≠ .normal →
        ∃ ends, after.endsAt = some ends ∧
          ends.nanos = v.time.nanos + p.keepAlive.displacement ∧
          (0 < c.state.resendDelaySeconds →
            (v.time < ends ↔ c.state.keepAliveSeconds ≤ Span.longestSeconds)) := by
  obtain ⟨hchecked, -⟩ := validate_eq_ok_iff.1 h
  refine ⟨⟨?_, ?_⟩, ?_, ?_, ?_⟩
  · exact Nat.mul_pos (by decide) hchecked.base_pos
  · exact Span.ofSeconds_lt_limit_iff.2 hsized.base_lt
  · exact Span.ofSeconds_lt_limit_iff.2 hsized.resendDelay_lt
  · exact c.state.isSome_keepAlive?_iff
  · intro p hp
    have hkeepAlive := StateSettings.keepAlive_of_policy?_eq hp
    have hadded := Span.displacement_ofSeconds c.state.keepAliveSeconds
    rw [← hkeepAlive] at hadded
    refine ⟨hkeepAlive, hadded, ?_⟩
    intro i after r v t happly hactive
    obtain ⟨ends, hends, hnanos⟩ := Instance.exists_end_of_moved happly hactive
    refine ⟨ends, hends, hnanos, ?_⟩
    intro hdelay
    have hpos : 0 < p.keepAlive.nanos := by
      rw [hkeepAlive]
      exact Nat.mul_pos (by decide) (Nat.mul_pos hdelay hchecked.resendMultiplier_pos)
    show v.time.nanos < ends.nanos ↔ _
    rw [hnanos, hadded]
    split
    · rename_i hshort
      exact iff_of_true (by omega) hshort
    · rename_i hlong
      exact iff_of_false (by omega) hlong

/-- Settings with a delay and a multiplier. -/
def resending (delay multiplier : Nat) : Config :=
  { state := { resendDelaySeconds := delay, resendMultiplier := multiplier } }

/-- The first breach of a new instance under the settings leaves it alerting with an end. -/
def BreachEnds (c : Config) (ends : Moment) : Prop :=
  ∃ p after t, c.state.policy? = some p ∧
    (Instance.new {} ∅ 10).apply {} Instance.breach p = (after, .moved t) ∧
    after.status = .alerting ∧ after.endsAt = some ends

theorem spans_of_validate_minute :
    (resending 30 2).validate = .ok (resending 30 2) ∧ (resending 30 2).Sized ∧
      ∃ ends, (resending 30 2).BreachEnds ends ∧ Instance.breach.time < ends := by
  have hvalid : (resending 30 2).validate = .ok (resending 30 2) := rfl
  have hsized : (resending 30 2).Sized := ⟨by decide, by decide⟩
  have hpolicy : (resending 30 2).state.policy? = some ⟨.ofSeconds 60, 10⟩ := rfl
  obtain ⟨after, t, happly, hstatus⟩ : ∃ after t,
      (Instance.new {} ∅ 10).apply {} Instance.breach ⟨.ofSeconds 60, 10⟩ = (after, .moved t) ∧
        after.status = .alerting := ⟨_, _, rfl, rfl⟩
  obtain ⟨-, -, -, hwindow⟩ := spans_of_validate hvalid hsized
  obtain ⟨-, -, hend⟩ := hwindow _ hpolicy
  obtain ⟨ends, hends, -, hlater⟩ := hend _ after {} Instance.breach t happly (by simp [hstatus])
  refine ⟨hvalid, hsized, ends, ⟨_, after, t, hpolicy, happly, hstatus, hends⟩, ?_⟩
  exact (hlater (by decide)).2 (by decide)

/-- **No upper limit is checked.** Of two valid configurations one has a keep-alive that is no
span, and the other one that counts as none, so that an alert ends when it begins. -/
theorem keepAlive_too_long :
    ((resending (1 <<< 64 - 1) 2).validate = .ok (resending (1 <<< 64 - 1) 2) ∧
      (resending (1 <<< 64 - 1) 2).Sized ∧
      (resending (1 <<< 64 - 1) 2).state.keepAlive? = none) ∧
    (resending 9223372036854776 1).validate = .ok (resending 9223372036854776 1) ∧
      (resending 9223372036854776 1).Sized ∧
      (resending 9223372036854776 1).BreachEnds Instance.breach.time := by
  refine ⟨⟨rfl, ⟨by decide, by decide⟩, by decide⟩, rfl, ⟨by decide, by decide⟩, ?_⟩
  exact ⟨_, _, _, rfl, rfl, rfl, rfl⟩

end Config

end Vigil
