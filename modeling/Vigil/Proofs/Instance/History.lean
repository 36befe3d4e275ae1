import Mathlib.Data.List.Induction
import Mathlib.Tactic.ByContra
import Vigil.Proofs.Instance.Run

/-!
# What an instance tells of its run

An instance keeps a handful of fields and forgets the verdicts that set them.
Here the run is written down instead: each verdict that counts leaves a stage,
with the state it met and the state it left. The fields of a new instance that
was driven through any run can be read off these stages
(`drive_fields_of_stages`).

The invariant has two parts. What a verdict sets anew is a function of the last
stage (`Settled`). The start of the present state is older than that, and goes
back to the last stage that changed the state (`Tells.startsAt`).
-/

namespace Vigil

/-- A verdict that counted, the state it met and the state it left. -/
structure Stage where
  application : Application
  before : Status
  after : Status

namespace Stage

def moved (s : Stage) : Bool := s.before != s.after

def time (s : Stage) : Moment := s.application.verdict.time

end Stage

namespace Instance

/-- The stages of a run, oldest first. -/
def stages (i : Instance) : List Application → List Stage
  | [] => []
  | a :: as =>
    if a.counts then ⟨a, i.status, (i.next a).status⟩ :: (i.next a).stages as
    else (i.next a).stages as

theorem map_application_stages (i : Instance) (as : List Application) :
    (i.stages as).map Stage.application = as.filter Application.counts := by
  induction as generalizing i with
  | nil => rfl
  | cons a as ih =>
      rw [stages, List.filter_cons]
      by_cases ha : a.counts = true
      · rw [if_pos ha, if_pos ha, List.map_cons, ih]
      · rw [if_neg ha, if_neg ha, ih]

theorem stages_snoc (i : Instance) (as : List Application) (a : Application) :
    i.stages (as ++ [a]) = i.stages as ++
      if a.counts then [⟨a, (i.drive as).status, ((i.drive as).next a).status⟩] else [] := by
  induction as generalizing i with
  | nil => simp [stages]
  | cons b as ih =>
      rw [List.cons_append, stages, stages, drive_cons, ih]
      by_cases hb : b.counts = true
      · rw [if_pos hb, if_pos hb]
        rfl
      · rw [if_neg hb, if_neg hb]

/-! ## One verdict that counts -/

/-- Only a target of normal leaves an instance normal. -/
theorem entry_eq_normal_iff {i : Instance} {r : Rule} {s : Status} {t : Moment} {target : Target}
    (h : r.target? s = some target) :
    (i.entry r t target).1 = .normal ↔ target = .normal := by
  cases target with
  | normal => simp [entry]
  | keep kept =>
      obtain ⟨-, rfl | rfl⟩ := Rule.target?_eq_keep h
      · simp [entry]
      · simp [entry]
  | alerting =>
      obtain ⟨-, he⟩ | ⟨-, he⟩ | ⟨-, -, he⟩ := i.entry_alerting r t
      · simp [he]
      · rw [he]; split <;> simp
      · rw [he]; split <;> simp

/-- Where the start of a state comes from: a normal instance has none, one that
changed its state starts now, any other keeps what it has. -/
theorem entry_startsAt {i : Instance} {r : Rule} {s : Status} {t : Moment} {target : Target}
    (h : r.target? s = some target) (hi : i.status ≠ .normal → i.startsAt ≠ none) :
    (i.entry r t target).2 =
      if (i.entry r t target).1 = .normal then none
      else if i.status ≠ (i.entry r t target).1 then some t else i.startsAt := by
  cases target with
  | normal => simp [entry]
  | keep kept =>
      have hk : kept ≠ .normal := by
        rcases (Rule.target?_eq_keep h).2 with hk | hk <;> simp [hk]
      -- one that keeps its state has a start already, so `t` never stands in for it
      by_cases hs : i.status = kept
      · have hstart : i.startsAt ≠ none := hi (hs ▸ hk)
        simp [entry, hs, hstart, hk]
      · simp [entry, hs, hk]
  | alerting =>
      obtain ⟨hs, he⟩ | ⟨hs, he⟩ | ⟨hs, hs', he⟩ := i.entry_alerting r t
      · simp [he, hs]
      · rw [he, hs]; split <;> simp
      · rw [he]
        by_cases hz : r.holdFor.isZero = true
        · simp [hz, hs]
        · simp [hz, hs']

/-- The fields that the last stage decides. -/
structure Settled (i : Instance) (s : Stage) : Prop where
  status : i.status = s.after
  lastEvaluation : i.lastEvaluation = s.time
  endsAt : if s.after = .normal then i.endsAt = none
    else i.endsAt ≠ none ∧ i.endsAt = s.time.after? s.application.policy.keepAlive
  resolved : i.resolved = (s.before == .alerting && s.after == .normal)
  error : i.error =
    if s.application.verdict.status = .error ∧ s.after ≠ .normal
    then s.application.verdict.error else none
  reason : i.reason = reasonFor s.after s.application.verdict
  window : i.window.last? = some s.application.point

theorem settled_next (i : Instance) {a : Application} (ha : a.counts = true) (hc : a.InCalendar) :
    (i.next a).Settled ⟨a, i.status, (i.next a).status⟩ := by
  obtain ⟨t, ht⟩ := Application.exists_target ha
  obtain ⟨endsAt, he, hnext⟩ := i.next_eq_settled ht hc
  have hn := entry_eq_normal_iff (i := i) (t := a.verdict.time) ht
  rw [hnext]
  refine ⟨rfl, rfl, ?_, rfl, ?_, rfl, ?_⟩
  · show if (i.entry a.rule a.verdict.time t).1 = .normal then endsAt = none
      else endsAt ≠ none ∧ endsAt = a.verdict.time.after? a.policy.keepAlive
    by_cases htn : t = .normal
    · rw [if_pos (hn.2 htn)]
      subst htn
      exact (Option.some.inj he).symm
    · rw [if_neg (fun h => htn (hn.1 h))]
      obtain ⟨e, hafter⟩ := Option.isSome_iff_exists.1 (hc t ht htn)
      have hends : endsAt = some e := by
        cases t with
        | normal => exact absurd rfl htn
        | alerting => simpa [expiry?, hafter] using he.symm
        | keep s => simpa [expiry?, hafter] using he.symm
      rw [hafter, hends]
      exact ⟨by simp, rfl⟩
  · show errorOf a.verdict t = _
    simp only [errorOf, ne_eq, hn]
  · show (Window.push _ _).last? = _
    simp [Window.last?, Window.push, Application.point]

/-! ## The invariant of a run -/

/-- What holds of a new instance after the stages `ss`. -/
structure Tells (i : Instance) (ss : List Stage) : Prop where
  startsAt : i.startsAt =
    if i.status = .normal then none else ((ss.filter Stage.moved).getLast?).map Stage.time
  started : i.status ≠ .normal → i.startsAt ≠ none
  settled : ∀ s, ss.getLast? = some s → i.Settled s
  untouched : ss = [] → i.status = .normal ∧ i.endsAt = none ∧ i.resolved = false ∧
    i.error = none ∧ i.reason = "" ∧ i.window.last? = none

theorem tells_new (r : Rule) (labels : Labels) (history : Nat) :
    (new r labels history).Tells [] where
  startsAt := rfl
  started h := absurd rfl h
  settled s hs := by simp at hs
  untouched _ := ⟨rfl, rfl, rfl, rfl, rfl, rfl⟩

theorem Tells.next {i : Instance} {ss : List Stage} (h : i.Tells ss) {a : Application}
    (ha : a.counts = true) (hc : a.InCalendar) :
    (i.next a).Tells (ss ++ [⟨a, i.status, (i.next a).status⟩]) := by
  obtain ⟨t, ht⟩ := Application.exists_target ha
  have hentry := i.next_entry ht
  have hstatus : (i.entry a.rule a.verdict.time t).1 = (i.next a).status := by rw [← hentry]
  have hstart : (i.next a).startsAt = if (i.next a).status = .normal then none
      else if i.status ≠ (i.next a).status then some a.verdict.time else i.startsAt := by
    have := entry_startsAt (t := a.verdict.time) ht h.started
    rw [hstatus] at this
    rw [← this, ← hentry]
  refine ⟨?_, ?_, ?_, fun hnil => absurd hnil (by simp)⟩
  · rw [hstart, List.filter_append, List.getLast?_append]
    by_cases hn : (i.next a).status = .normal
    · rw [if_pos hn, if_pos hn]
    · rw [if_neg hn, if_neg hn]
      -- if nothing moved, the start is as old as before
      by_cases hm : i.status = (i.next a).status
      · have hold : i.status ≠ .normal := hm ▸ hn
        rw [if_neg (not_not_intro hm), h.startsAt, if_neg hold]
        simp [Stage.moved, hm]
      · rw [if_pos hm]
        simp [Stage.moved, hm, Stage.time]
  · intro hn
    rw [hstart, if_neg hn]
    by_cases hm : i.status = (i.next a).status
    · rw [if_neg (not_not_intro hm)]
      exact h.started (hm ▸ hn)
    · rw [if_pos hm]
      simp
  · intro s hs
    rw [List.getLast?_append] at hs
    obtain rfl : (⟨a, i.status, (i.next a).status⟩ : Stage) = s := by simpa using hs
    exact i.settled_next ha hc

theorem tells_drive (r : Rule) (labels : Labels) (history : Nat) {as : List Application}
    (hc : ∀ a ∈ as, a.InCalendar) :
    ((new r labels history).drive as).Tells ((new r labels history).stages as) := by
  induction as using List.reverseRecOn with
  | nil => exact tells_new r labels history
  | append_singleton as a ih =>
      have hbefore := ih fun b hb => hc b (List.mem_append_left _ hb)
      rw [drive_snoc, stages_snoc]
      -- a pending verdict adds no stage and changes no field
      by_cases ha : a.counts = true
      · rw [if_pos ha]
        exact hbefore.next ha (hc a (by simp))
      · rw [if_neg ha, List.append_nil, next_of_pending _ (by simpa using ha)]
        exact hbefore

/-! ## The fields after a run -/

theorem reasonFor_ne_empty_iff {status : Status} {v : Verdict} (hv : v.status ≠ .pending) :
    reasonFor status v ≠ "" ↔ (v.status = .noData ∨ v.status = .error) ∧ status ≠ v.status := by
  unfold reasonFor
  cases h : v.status with
  | normal => simp
  | alerting => simp
  | pending => exact absurd h hv
  | noData => by_cases hs : status = .noData <;> simp [hs, Status.text]
  | error => by_cases hs : status = .error <;> simp [hs, Status.text]

theorem counts_of_mem_stages {i : Instance} {as : List Application} {s : Stage}
    (h : s ∈ i.stages as) : s.application.verdict.status ≠ .pending := by
  have hm : s.application ∈ (i.stages as).map Stage.application := List.mem_map_of_mem h
  rw [map_application_stages, List.mem_filter] at hm
  exact Application.counts_iff.1 hm.2

/-- The end of an active instance comes one keep-alive after its last evaluation, and
with that evaluation if the keep-alive is too long for a displacement. -/
theorem Settled.exists_end {i : Instance} {s : Stage} (h : i.Settled s)
    (hactive : i.status ≠ .normal) : ∃ ends, i.endsAt = some ends ∧
      (s.application.policy.keepAlive.nanos ≤ Span.longestDisplacement →
        ends.nanos = i.lastEvaluation.nanos + s.application.policy.keepAlive.nanos) ∧
      (Span.longestDisplacement < s.application.policy.keepAlive.nanos →
        ends = i.lastEvaluation) := by
  have hends := h.endsAt
  rw [← h.status, if_neg hactive] at hends
  obtain ⟨hsome, hafter⟩ := hends
  obtain ⟨ends, hends⟩ := Option.ne_none_iff_exists'.1 hsome
  rw [hends, Moment.after?, eq_comm, Moment.shift?_eq_some_iff] at hafter
  obtain ⟨hnanos, -⟩ := hafter
  refine ⟨ends, hends, ?_, ?_⟩
  · intro hle
    rw [hnanos, h.lastEvaluation, Span.displacement, if_pos hle]
  · intro hlt
    rw [Span.displacement, if_neg (Nat.not_le_of_lt hlt), Int.add_zero] at hnanos
    rw [h.lastEvaluation]
    cases ends
    exact congrArg Moment.mk hnanos

namespace Tells

variable {i : Instance} {ss : List Stage}

theorem status_eq_normal_iff (h : i.Tells ss) : i.status = .normal ↔ i.startsAt = none := by
  constructor
  · intro hn
    rw [h.startsAt, if_pos hn]
  · intro hnone
    by_contra hactive
    exact h.started hactive hnone

theorem startsAt_eq_none_iff (h : i.Tells ss) : i.startsAt = none ↔ i.endsAt = none := by
  rw [← h.status_eq_normal_iff]
  cases hlast : ss.getLast? with
  | none =>
      obtain ⟨hn, hends, -⟩ := h.untouched (List.getLast?_eq_none_iff.1 hlast)
      simp [hn, hends]
  | some s =>
      have hset := h.settled s hlast
      have hends := hset.endsAt
      rw [← hset.status] at hends
      by_cases hn : i.status = .normal
      · rw [if_pos hn] at hends
        simp [hn, hends]
      · rw [if_neg hn] at hends
        simp [hn, hends.1]

/-- An active instance has a last stage, and a last one that changed its state. -/
theorem exists_entered (h : i.Tells ss) (hactive : i.status ≠ .normal) : ∃ entered s,
    (ss.filter Stage.moved).getLast? = some entered ∧ i.startsAt = some entered.time ∧
      ss.getLast? = some s := by
  have hstart := h.startsAt
  rw [if_neg hactive] at hstart
  obtain ⟨t, ht⟩ := Option.ne_none_iff_exists'.1 (h.started hactive)
  obtain ⟨entered, hentered, rfl⟩ := Option.map_eq_some_iff.1 (hstart ▸ ht)
  cases hlast : ss.getLast? with
  | none => exact absurd (h.untouched (List.getLast?_eq_none_iff.1 hlast)).1 hactive
  | some s => exact ⟨entered, s, hentered, ht, rfl⟩

theorem resolved_iff (h : i.Tells ss) : i.resolved = true ↔
    ∃ s, ss.getLast? = some s ∧ s.before = .alerting ∧ s.after = .normal := by
  cases hlast : ss.getLast? with
  | none =>
      obtain ⟨-, -, hresolved, -⟩ := h.untouched (List.getLast?_eq_none_iff.1 hlast)
      simp [hresolved]
  | some s =>
      rw [(h.settled s hlast).resolved]
      simp

theorem error_eq_some_iff (h : i.Tells ss) (e : String) : i.error = some e ↔
    ∃ s, ss.getLast? = some s ∧ s.application.verdict.status = .error ∧ i.status ≠ .normal ∧
      s.application.verdict.error = some e := by
  cases hlast : ss.getLast? with
  | none =>
      obtain ⟨-, -, -, herror, -⟩ := h.untouched (List.getLast?_eq_none_iff.1 hlast)
      simp [herror]
  | some s =>
      have hset := h.settled s hlast
      rw [hset.error, hset.status]
      by_cases he : s.application.verdict.status = .error ∧ s.after ≠ .normal
      · simp [he]
      · rw [if_neg he]
        simp only [reduceCtorEq, Option.some.injEq, exists_eq_left', false_iff]
        exact fun hx => he ⟨hx.1, hx.2.1⟩

theorem reason_ne_empty_iff (h : i.Tells ss)
    (hcounts : ∀ s ∈ ss, s.application.verdict.status ≠ .pending) : i.reason ≠ "" ↔
    ∃ s, ss.getLast? = some s ∧
      (s.application.verdict.status = .noData ∨ s.application.verdict.status = .error) ∧
      i.status ≠ s.application.verdict.status := by
  cases hlast : ss.getLast? with
  | none =>
      obtain ⟨-, -, -, -, hreason, -⟩ := h.untouched (List.getLast?_eq_none_iff.1 hlast)
      simp [hreason]
  | some s =>
      have hset := h.settled s hlast
      rw [hset.reason, hset.status,
        reasonFor_ne_empty_iff (hcounts s (List.mem_of_getLast? hlast))]
      simp

theorem window_last? (h : i.Tells ss) :
    i.window.last? = ss.getLast?.map (·.application.point) := by
  cases hlast : ss.getLast? with
  | none =>
      obtain ⟨-, -, -, -, -, hwindow⟩ := h.untouched (List.getLast?_eq_none_iff.1 hlast)
      exact hwindow
  | some s => exact (h.settled s hlast).window

end Tells

/-- **Every field is read off the run.** A new instance that was driven through
any verdicts is normal exactly while it has neither start nor end. Otherwise it
starts with the last verdict that changed its state and ends one keep-alive after
the last one that counts; a keep-alive too long for a displacement counts as none.
It is resolved, in error, explained and remembered as that last verdict says. -/
theorem drive_fields_of_stages (r : Rule) (labels : Labels) (history : Nat)
    (as : List Application) (hc : ∀ a ∈ as, a.InCalendar) :
    let start := new r labels history
    let i := start.drive as
    let last := (start.stages as).getLast?
    ((i.status = .normal ↔ i.startsAt = none) ∧ (i.startsAt = none ↔ i.endsAt = none)) ∧
    (i.status ≠ .normal → ∃ entered s ends,
      ((start.stages as).filter Stage.moved).getLast? = some entered ∧
      i.startsAt = some entered.application.verdict.time ∧
      last = some s ∧ i.lastEvaluation = s.application.verdict.time ∧ i.endsAt = some ends ∧
      (s.application.policy.keepAlive.nanos ≤ Span.longestDisplacement →
        ends.nanos = i.lastEvaluation.nanos + s.application.policy.keepAlive.nanos) ∧
      (Span.longestDisplacement < s.application.policy.keepAlive.nanos →
        ends = i.lastEvaluation)) ∧
    (i.resolved = true ↔ ∃ s, last = some s ∧ s.before = .alerting ∧ s.after = .normal) ∧
    (∀ e, i.error = some e ↔ ∃ s, last = some s ∧ s.application.verdict.status = .error ∧
      i.status ≠ .normal ∧ s.application.verdict.error = some e) ∧
    (i.reason ≠ "" ↔ ∃ s, last = some s ∧
      (s.application.verdict.status = .noData ∨ s.application.verdict.status = .error) ∧
      i.status ≠ s.application.verdict.status) ∧
    i.window.last? = last.map (·.application.point) ∧
    (∀ (j : Instance) (a : Application), a.verdict.status = .pending → j.next a = j) := by
  intro start i last
  have h : i.Tells (start.stages as) := tells_drive r labels history hc
  refine ⟨⟨h.status_eq_normal_iff, h.startsAt_eq_none_iff⟩, ?_, h.resolved_iff,
    h.error_eq_some_iff, h.reason_ne_empty_iff fun s => counts_of_mem_stages, h.window_last?, ?_⟩
  · intro hactive
    obtain ⟨entered, s, hentered, hstart, hlast⟩ := h.exists_entered hactive
    have hset := h.settled s hlast
    obtain ⟨ends, hends, hshort, hlong⟩ := hset.exists_end hactive
    exact ⟨entered, s, ends, hentered, hstart, hlast, hset.lastEvaluation, hends, hshort, hlong⟩
  · intro j a ha
    apply j.next_of_pending
    rw [Application.counts, ha]
    rfl

/-- A breach under the shortest keep-alive of whole seconds that is too long for a
displacement. -/
def overlong : Application where
  rule := {}
  verdict := { labels := ∅, status := .alerting, time := .epoch }
  policy := ⟨.ofSeconds 9223372036854776, 10⟩

/-- An overlong keep-alive is not added to the last evaluation: the alert ends when
it starts. -/
theorem overlong_keepAlive_adds_nothing :
    let i := (new {} ∅ 10).drive [overlong]
    overlong.InCalendar ∧ i.status = .alerting ∧ i.lastEvaluation = .epoch ∧
      i.endsAt = some .epoch ∧
      i.endsAt ≠ some ⟨i.lastEvaluation.nanos + overlong.policy.keepAlive.nanos⟩ := by
  refine ⟨?_, by decide, by decide, by decide, by decide⟩
  intro t _ _
  decide

/-- A breach, a pending verdict, missing data that counts as a breach, and the end
of it, an hour apart. -/
def passing : List Application :=
  [.alerting, .pending, .noData, .normal].zipIdx.map fun (status, n) =>
    { rule := { onNoData := .alerting }
      verdict := { labels := ∅, status, time := ⟨n * 3600 * nanosPerSecond⟩ }
      policy := ⟨.ofSeconds 90, 10⟩ }

theorem drive_fields_of_stages_passing :
    (∀ a ∈ passing, a.InCalendar) ∧
      ((new {} ∅ 10).drive passing).resolved = true ∧
      ((new {} ∅ 10).drive (passing.take 3)).reason ≠ "" ∧
      ((new {} ∅ 10).drive (passing.take 3)).startsAt = some .epoch := by
  have hc : ∀ a ∈ passing, a.InCalendar := by
    intro a ha t ht hn
    simp only [passing, List.zipIdx_cons, List.zipIdx_nil, List.map_cons, List.map_nil,
      List.mem_cons, List.not_mem_nil, or_false] at ha
    rcases ha with rfl | rfl | rfl | rfl <;> decide
  have hwhole := drive_fields_of_stages {} ∅ 10 passing hc
  have hpart := drive_fields_of_stages {} ∅ 10 (passing.take 3)
    fun a ha => hc a (List.mem_of_mem_take ha)
  refine ⟨hc, hwhole.2.2.1.2 ⟨_, rfl, rfl, rfl⟩,
    hpart.2.2.2.2.1.2 ⟨_, rfl, Or.inl rfl, by decide⟩, ?_⟩
  obtain ⟨entered, s, ends, hentered, hstart, -⟩ := hpart.2.1 (by decide)
  rw [hstart]
  cases hentered
  rfl

end Instance

end Vigil
