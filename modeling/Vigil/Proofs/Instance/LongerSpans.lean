import Vigil.Proofs.Instance.HoldPeriod

/-!
# Longer spans

How long a breach holds before it fires, how long an alert waits to be sent again and how long
an instance may go unseen are spans. The longer the span, the later the instance acts on it.
For the hold period that compares two runs of the same verdicts: the instance that has the
shorter period is ahead of the other one after every verdict (`Instance.Ahead`).

A span that is too long for a displacement counts as none, and a shorter one may then count
for more (`Span.displacement_le_iff`). That is the only exception
(`Instance.actsNoEarlier_iff`).
-/

namespace Vigil

namespace Span

variable {d e : Span}

theorem displacement_of_le (h : d.nanos ≤ longestDisplacement) : d.displacement = d.nanos :=
  if_pos h

theorem displacement_of_lt (h : longestDisplacement < d.nanos) : d.displacement = 0 :=
  if_neg (Nat.not_le_of_lt h)

theorem displacement_nonneg (d : Span) : 0 ≤ d.displacement := by
  unfold displacement
  split
  · exact Int.natCast_nonneg _
  · exact Int.le_refl 0

/-- A longer span counts for less only if it is too long and the shorter one is not. -/
theorem displacement_le_iff (h : d.nanos ≤ e.nanos) :
    d.displacement ≤ e.displacement ↔
      e.nanos ≤ longestDisplacement ∨ longestDisplacement < d.nanos ∨ d.nanos = 0 := by
  rcases Nat.lt_or_ge longestDisplacement d.nanos with hd | hd
  · rw [displacement_of_lt hd]
    simp [hd, e.displacement_nonneg]
  rcases Nat.lt_or_ge longestDisplacement e.nanos with he | he
  · rw [displacement_of_le hd, displacement_of_lt he]
    omega
  · rw [displacement_of_le hd, displacement_of_le he]
    simp [he, h]

end Span

/-- If the calendar has the moment one span later, it has the one a shorter span later. -/
theorem Moment.after?_of_le {d e : Span} {t u : Moment} (ht : first ≤ t)
    (hle : d.displacement ≤ e.displacement) (h : t.after? e = some u) :
    ∃ s, t.after? d = some s ∧ s ≤ u := by
  rw [after?, shift?_eq_some_iff] at h
  obtain ⟨hu, -, hlast⟩ := h
  have hnonneg := d.displacement_nonneg
  have hfirst : first.nanos ≤ t.nanos := ht
  refine ⟨⟨t.nanos + d.displacement⟩, ?_, ?_⟩
  · rw [after?, shift?_eq_some_iff]
    refine ⟨rfl, ?_, ?_⟩
    · show first.nanos ≤ t.nanos + d.displacement
      omega
    · show t.nanos + d.displacement ≤ last.nanos
      omega
  · show t.nanos + d.displacement ≤ u.nanos
    omega

namespace Instance

open Application

variable {i j i' j' : Instance} {d e : Span}

/-! ## Hold periods -/

/-- Two instances in the same state, except that `i` may fire where `j` still waits. If both
wait they do so since the same moment. -/
structure Ahead (i j : Instance) : Prop where
  status : i.status = j.status ∨ i.status = .alerting ∧ j.status = .pending
  waiting : i.status = .pending → i.startsAt = j.startsAt

theorem Ahead.refl (i : Instance) : Ahead i i := ⟨Or.inl rfl, fun _ => rfl⟩

theorem Ahead.fires (h : Ahead i j) (hj : j.status = .alerting) : i.status = .alerting := by
  rcases h.status with hs | ⟨hi, -⟩
  · rw [hs, hj]
  · exact hi

theorem ahead_of_fires (hi : i.status = .alerting)
    (hj : j.status = .alerting ∨ j.status = .pending) : Ahead i j := by
  refine ⟨?_, fun hwaits => absurd (hi.symm.trans hwaits) nofun⟩
  rcases hj with hj | hj
  · exact Or.inl (hi.trans hj.symm)
  · exact Or.inr ⟨hi, hj⟩

theorem ahead_of_status (s : Status) (hi : i.status = s) (hj : j.status = s)
    (hs : s ≠ .pending) : Ahead i j :=
  ⟨Or.inl (hi.trans hj.symm), fun hwaits => absurd (hi.symm.trans hwaits) hs⟩

theorem entry_alerting_status (i : Instance) (r : Rule) (t : Moment) :
    (i.entry r t .alerting).1 = .alerting ∨ (i.entry r t .alerting).1 = .pending := by
  obtain ⟨-, h⟩ | ⟨-, h⟩ | ⟨-, -, h⟩ := i.entry_alerting r t
  · rw [h]
    exact Or.inl rfl
  · rw [h]
    split
    · exact Or.inl rfl
    · exact Or.inr rfl
  · rw [h]
    dsimp only
    split
    · exact Or.inl rfl
    · exact Or.inr rfl

/-- After a breach an instance waits if it waited before and the period is not over, or if the
breach is the first and there is a period. -/
theorem entry_alerting_eq_pending_iff {r : Rule} {t : Moment} {start : Option Moment} :
    i.entry r t .alerting = (.pending, start) ↔
      (i.status = .pending ∧ i.startsAt = start ∧
        t.nanos - (i.startsAt.getD t).nanos < r.holdFor.displacement) ∨
      (i.status ≠ .alerting ∧ i.status ≠ .pending ∧ some t = start ∧ r.holdFor.nanos ≠ 0) := by
  obtain ⟨hs, h⟩ | ⟨hs, h⟩ | ⟨hs, hs', h⟩ := i.entry_alerting r t
  · rw [h]
    simp [hs]
  · rw [h]
    split
    · rename_i hlong
      simp [hs, Int.not_lt.2 hlong]
    · rename_i hshort
      simp [hs, Int.not_le.1 hshort]
  · rw [h]
    by_cases hzero : r.holdFor.nanos = 0
    · simp [hs', Span.isZero, hzero]
    · simp [hs, hs', Span.isZero, hzero]

/-- A breach under the shorter and under the longer period. -/
theorem Ahead.breach (h : Ahead i j) {r : Rule} {t : Moment}
    (hle : d.displacement ≤ e.displacement) (hzero : e.nanos = 0 → d.nanos = 0)
    (hi : (i'.status, i'.startsAt) = i.entry { r with holdFor := d } t .alerting)
    (hj : (j'.status, j'.startsAt) = j.entry { r with holdFor := e } t .alerting) :
    Ahead i' j' := by
  have hi' := i.entry_alerting_status { r with holdFor := d } t
  have hj' := j.entry_alerting_status { r with holdFor := e } t
  rw [← hi] at hi'
  rw [← hj] at hj'
  dsimp only at hi' hj'
  rcases hi' with hfires | hwaits
  · exact ahead_of_fires hfires hj'
  -- what makes `i` wait makes `j` wait
  · rw [hwaits, eq_comm, entry_alerting_eq_pending_iff] at hi
    have hlater : j.entry { r with holdFor := e } t .alerting = (.pending, i'.startsAt) := by
      rw [entry_alerting_eq_pending_iff]
      rcases hi with ⟨hs, hstart, hshort⟩ | ⟨hs, hs', hstart, hd⟩
      · have hstart' := h.waiting hs
        rcases h.status with hsame | ⟨hfires, -⟩
        · refine Or.inl ⟨hsame.symm.trans hs, hstart'.symm.trans hstart, ?_⟩
          rw [← hstart']
          exact Int.lt_of_lt_of_le hshort hle
        · cases hs.symm.trans hfires
      · rcases h.status with hsame | ⟨hfires, -⟩
        · rw [hsame] at hs hs'
          exact Or.inr ⟨hs, hs', hstart, mt hzero hd⟩
        · exact absurd hfires hs
    rw [hlater, Prod.mk.injEq] at hj
    exact ⟨Or.inl (hwaits.trans hj.1.symm), fun _ => hj.2.symm⟩

/-- One verdict under either period. -/
theorem Ahead.next (h : Ahead i j) (hle : d.displacement ≤ e.displacement)
    (hzero : e.nanos = 0 → d.nanos = 0) (r : Rule) (v : Verdict) (p : TransitionPolicy) :
    Ahead (i.next ⟨{ r with holdFor := d }, v, p⟩) (j.next ⟨{ r with holdFor := e }, v, p⟩) := by
  let a : Application := ⟨{ r with holdFor := d }, v, p⟩
  let b : Application := ⟨{ r with holdFor := e }, v, p⟩
  show Ahead (i.next a) (j.next b)
  by_cases hcounts : a.counts = true
  · obtain ⟨target, ha⟩ := exists_target hcounts
    have hb : b.target? = some target := ha
    have hi := i.next_entry ha
    have hj := j.next_entry hb
    cases target with
    | normal =>
        exact ahead_of_status .normal (congrArg Prod.fst hi) (congrArg Prod.fst hj) nofun
    | keep kept =>
        refine ahead_of_status kept (congrArg Prod.fst hi) (congrArg Prod.fst hj) ?_
        obtain ⟨-, rfl | rfl⟩ := Rule.target?_eq_keep ha
        · nofun
        · nofun
    | alerting => exact h.breach hle hzero hi hj
  · have ha : a.counts = false := by simpa using hcounts
    have hb : b.counts = false := ha
    rw [next_of_pending i ha, next_of_pending j hb]
    exact h

/-- **Two runs of the same verdicts.** The instance with the shorter period stays ahead. -/
theorem Ahead.drive (h : Ahead i j) (hle : d.displacement ≤ e.displacement)
    (hzero : e.nanos = 0 → d.nanos = 0) (r : Rule) (vs : List (Verdict × TransitionPolicy)) :
    Ahead (i.drive (allUnder { r with holdFor := d } vs))
      (j.drive (allUnder { r with holdFor := e } vs)) := by
  induction vs using List.reverseRecOn with
  | nil => exact h
  | append_singleton vs vp ih =>
      unfold allUnder at ih ⊢
      rw [List.map_append, List.map_append, List.map_singleton, List.map_singleton, drive_snoc,
        drive_snoc]
      exact ih.next hle hzero r vp.1 vp.2

/-! ## Delays and limits -/

theorem needsSending?_of_le (hsent : ∀ t ∈ i.sentAt, Moment.first ≤ t)
    (hle : d.displacement ≤ e.displacement) (h : i.needsSending? e = some true) :
    i.needsSending? d = some true := by
  unfold needsSending? at h ⊢
  split
  · rfl
  rename_i hresolved
  rw [if_neg hresolved] at h
  split
  · rename_i hinactive
    rw [if_pos hinactive] at h
    exact h
  rename_i hactive
  rw [if_neg hactive] at h
  cases hs : i.sentAt with
  | none => rfl
  | some sent =>
      rw [hs] at h
      obtain ⟨due, hdue, hover⟩ := Option.map_eq_some_iff.1 h
      obtain ⟨due', hdue', hearlier⟩ := Moment.after?_of_le (hsent sent hs) hle hdue
      have hover' : due'.nanos ≤ i.lastEvaluation.nanos :=
        Int.le_trans hearlier (of_decide_eq_true hover)
      show (sent.after? d).map _ = some true
      rw [hdue', Option.map_some, Option.some.injEq, decide_eq_true_iff]
      exact hover'

theorem isStale?_eq_some_true_iff {now : Moment} {r : Rule} {multiplier : Nat}
    (hd : r.interval.times? multiplier = some d) :
    i.isStale? now r multiplier = some true ↔
      ∃ limit, i.lastEvaluation.after? d = some limit ∧ limit < now := by
  unfold isStale?
  rw [hd]
  show ((i.lastEvaluation.after? d).bind fun limit => some (decide (limit < now))) = some true ↔ _
  cases i.lastEvaluation.after? d with
  | none => simp
  | some limit => simp

theorem isStale?_of_le {now : Moment} {r r' : Rule} {m m' : Nat}
    (hlast : Moment.first ≤ i.lastEvaluation) (hle : d.displacement ≤ e.displacement)
    (hd : r.interval.times? m = some d) (he : r'.interval.times? m' = some e)
    (h : i.isStale? now r' m' = some true) : i.isStale? now r m = some true := by
  obtain ⟨limit, hlimit, hover⟩ := (isStale?_eq_some_true_iff he).1 h
  obtain ⟨limit', hlimit', hearlier⟩ := Moment.after?_of_le hlast hle hlimit
  exact (isStale?_eq_some_true_iff hd).2 ⟨limit', hlimit', Int.lt_of_le_of_lt hearlier hover⟩

/-! ## Longer and shorter -/

/-- With the span `e` an instance acts no earlier than with `d`. After any verdicts a new one
fires under the hold period `e` only if it does under `d`, an alert is to be sent again after
the delay `e` only if it is after `d`, and an instance is stale at the limit `e` only if it is
at `d`, whichever interval and multiplier make the limit. -/
structure ActsNoEarlier (d e : Span) : Prop where
  fires : ∀ (origin r : Rule) (labels : Labels) (history : Nat)
    (vs : List (Verdict × TransitionPolicy)),
    ((new origin labels history).drive (allUnder { r with holdFor := e } vs)).status = .alerting →
    ((new origin labels history).drive (allUnder { r with holdFor := d } vs)).status = .alerting
  sends : ∀ i : Instance, (∀ t ∈ i.sentAt, Moment.first ≤ t) →
    i.needsSending? e = some true → i.needsSending? d = some true
  lapses : ∀ (i : Instance) (now : Moment) (r r' : Rule) (m m' : Nat),
    Moment.first ≤ i.lastEvaluation → r.interval.times? m = some d →
    r'.interval.times? m' = some e →
    i.isStale? now r' m' = some true → i.isStale? now r m = some true

/-- A breach at the start of 1970. -/
def breach : Verdict := { labels := ∅, status := .alerting, time := .epoch }

/-- After two breaches at one moment an instance fires only if its period counts as none. -/
theorem status_of_two_breaches (origin : Rule) (labels : Labels) (history : Nat) {r : Rule}
    (hr : r.holdFor.nanos ≠ 0) (p : TransitionPolicy) :
    ((new origin labels history).drive (allUnder r [(breach, p), (breach, p)])).status =
      if r.holdFor.displacement ≤ 0 then .alerting else .pending := by
  let a : Application := ⟨r, breach, p⟩
  have ha : a.target? = some .alerting := rfl
  let i := (new origin labels history).next a
  have hfirst : (i.status, i.startsAt) = (.pending, some .epoch) := by
    rw [next_entry _ ha]
    simp [entry, new, Span.isZero, hr, a, breach]
  obtain ⟨hstatus, hstart⟩ := Prod.mk.inj hfirst
  have hsecond : ((i.next a).status, (i.next a).startsAt) =
      if r.holdFor.displacement ≤ 0 then (.alerting, some .epoch)
      else (.pending, some .epoch) := by
    rw [next_entry _ ha, entry, hstatus, hstart]
    rfl
  have hstatus' := congrArg Prod.fst hsecond
  rw [apply_ite Prod.fst] at hstatus'
  exact hstatus'

/-- **Longer spans act no earlier,** unless the longer one is too long for a displacement and
the shorter one is neither that nor empty. -/
theorem actsNoEarlier_iff (h : d.nanos ≤ e.nanos) :
    ActsNoEarlier d e ↔
      e.nanos ≤ Span.longestDisplacement ∨ Span.longestDisplacement < d.nanos ∨
        d.nanos = 0 := by
  constructor
  · intro hacts
    by_contra hnot
    obtain ⟨he, hd, hd'⟩ : Span.longestDisplacement < e.nanos ∧
        d.nanos ≤ Span.longestDisplacement ∧ d.nanos ≠ 0 := by omega
    -- the longer one counts as none, so the second of two breaches fires
    have hfires := hacts.fires {} {} ∅ 1 [(breach, ⟨.zero, 1⟩), (breach, ⟨.zero, 1⟩)]
    rw [status_of_two_breaches {} ∅ 1 (r := { holdFor := e }) (by dsimp only; omega),
      status_of_two_breaches {} ∅ 1 (r := { holdFor := d }) hd', if_pos, if_neg] at hfires
    · exact absurd (hfires rfl) nofun
    · rw [Span.displacement_of_le hd]
      omega
    · exact Int.le_of_eq (Span.displacement_of_lt he)
  · intro hspans
    have hle : d.displacement ≤ e.displacement := (Span.displacement_le_iff h).2 hspans
    have hzero : e.nanos = 0 → d.nanos = 0 := fun he => Nat.le_zero.1 (he ▸ h)
    constructor
    · intro origin r labels history vs hfires
      exact ((Ahead.refl _).drive hle hzero r vs).fires hfires
    · intro i hsent hsends
      exact needsSending?_of_le hsent hle hsends
    · intro i now r r' m m' hlast hd he hstale
      exact isStale?_of_le hlast hle hd he hstale

/-- Breaches of a rule with a hold period, a minute apart. -/
def smouldering (holdFor : Span) (minutes : List Nat) : Instance :=
  (new {} ∅ 10).drive (allUnder { holdFor } (minutes.map fun n =>
    ({ breach with time := ⟨n * 60 * nanosPerSecond⟩ }, ⟨.ofSeconds 90, 10⟩)))

theorem actsNoEarlier_iff_minutes :
    (Span.ofSeconds 60).nanos ≤ (Span.ofSeconds 120).nanos ∧
      ActsNoEarlier (.ofSeconds 60) (.ofSeconds 120) ∧
      (smouldering (.ofSeconds 120) [0, 1, 2]).status = .alerting ∧
      (smouldering (.ofSeconds 60) [0, 1, 2]).status = .alerting ∧
      (smouldering (.ofSeconds 120) [0, 1]).status = .pending := by
  have hle : (Span.ofSeconds 60).nanos ≤ (Span.ofSeconds 120).nanos := by decide
  have hacts := (actsNoEarlier_iff hle).2 (Or.inl (by decide))
  have hfires : (smouldering (.ofSeconds 120) [0, 1, 2]).status = .alerting := by decide
  exact ⟨hle, hacts, hfires, hacts.fires _ {} _ _ _ hfires, by decide⟩

/-- The shortest span of whole seconds that is too long for a displacement. -/
def tooLong : Span := .ofSeconds 9223372036854776

/-- An instance that fires since the start of 1970, was sent then, and was last evaluated a
minute later. -/
def sentAtFirst : Instance :=
  { smouldering .zero [0, 1] with sentAt := some .epoch }

/-- **A span too long acts at once.** After a minute a breach fires under it that would wait
for an hour, an alert is sent again, and an instance is stale. -/
theorem tooLong_acts_earlier :
    (Span.ofSeconds 3600).nanos ≤ tooLong.nanos ∧
      (smouldering tooLong [0, 1]).status = .alerting ∧
      (smouldering (.ofSeconds 3600) [0, 1]).status = .pending ∧
      sentAtFirst.needsSending? tooLong = some true ∧
      sentAtFirst.needsSending? (.ofSeconds 3600) = some false ∧
      sentAtFirst.isStale? ⟨120 * nanosPerSecond⟩
        { intervalSeconds := 9223372036854776 } 1 = some true ∧
      sentAtFirst.isStale? ⟨120 * nanosPerSecond⟩ { intervalSeconds := 3600 } 1 =
        some false := by
  decide

end Instance

end Vigil
