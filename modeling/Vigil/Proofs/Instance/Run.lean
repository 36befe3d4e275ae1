import Vigil.Instance

/-!
# Runs of an instance

A run applies verdicts to one instance, each under a rule and a policy of its
own. This file says once what a single application can do; what holds after a
whole run is proved from these lemmas alone.

A pending verdict is no verdict: it changes nothing (`next_of_pending`). Any
other verdict has a target, and the target decides every field that the
instance carries besides its names (`next_eq_settled`).
-/

namespace Vigil

/-- One verdict, with the rule and the policy it is applied under. -/
structure Application where
  rule : Rule
  verdict : Verdict
  policy : TransitionPolicy

namespace Application

/-- Whether the verdict is one: a pending one is passed over. -/
def counts (a : Application) : Bool := a.verdict.status != .pending

def target? (a : Application) : Option Target := a.rule.target? a.verdict.status

/-- Applying the verdict does not lead out of the calendar. That depends on no
instance. -/
def InCalendar (a : Application) : Prop :=
  ∀ t, a.target? = some t → t ≠ .normal → (a.verdict.time.after? a.policy.keepAlive).isSome

/-- What an instance remembers of the verdict. -/
def point (a : Application) : Point :=
  ⟨a.verdict.time, a.verdict.status, a.verdict.values⟩

end Application

theorem Rule.target?_eq_none_iff (r : Rule) (s : Status) :
    r.target? s = none ↔ s = .pending := by
  cases s with
  | normal => simp [target?]
  | pending => simp [target?]
  | alerting => simp [target?]
  | noData => cases h : r.onNoData <;> simp [target?, h]
  | error => cases h : r.onError <;> simp [target?, h]

/-- A state that is kept is the state of the verdict: missing data or a failure. -/
theorem Rule.target?_eq_keep {r : Rule} {s kept : Status} (h : r.target? s = some (.keep kept)) :
    s = kept ∧ (kept = .noData ∨ kept = .error) := by
  cases s with
  | normal => simp [target?] at h
  | pending => simp [target?] at h
  | alerting => simp [target?] at h
  | noData => cases hp : r.onNoData <;> simp_all [target?]
  | error => cases hp : r.onError <;> simp_all [target?]

namespace Application

theorem counts_iff {a : Application} : a.counts = true ↔ a.verdict.status ≠ .pending := by
  simp [counts]

theorem target?_eq_none_iff {a : Application} : a.target? = none ↔ a.counts = false := by
  simp [target?, counts, Rule.target?_eq_none_iff]

theorem exists_target {a : Application} (h : a.counts = true) : ∃ t, a.target? = some t := by
  rw [← Option.isSome_iff_exists, Option.isSome_iff_ne_none]
  intro hn
  rw [target?_eq_none_iff, h] at hn
  exact Bool.noConfusion hn

end Application

namespace Instance

/-- The instance after one application. -/
def next (i : Instance) (a : Application) : Instance :=
  (i.apply a.rule a.verdict a.policy).1

/-- The instance after a run. -/
def drive (i : Instance) (as : List Application) : Instance := as.foldl next i

@[simp] theorem drive_nil (i : Instance) : i.drive [] = i := rfl

@[simp] theorem drive_cons (i : Instance) (a : Application) (as : List Application) :
    i.drive (a :: as) = (i.next a).drive as := rfl

theorem drive_append (i : Instance) (as bs : List Application) :
    i.drive (as ++ bs) = (i.drive as).drive bs := by
  unfold drive
  rw [List.foldl_append]

theorem drive_snoc (i : Instance) (as : List Application) (a : Application) :
    i.drive (as ++ [a]) = (i.drive as).next a := by
  rw [drive_append]
  rfl

/-! ## One application -/

theorem next_of_pending (i : Instance) {a : Application} (h : a.counts = false) :
    i.next a = i := by
  have ht : a.rule.target? a.verdict.status = none := Application.target?_eq_none_iff.2 h
  simp [next, apply, ht]

/-- The state and its start after an application, in or out of the calendar. -/
theorem next_entry (i : Instance) {a : Application} {t : Target} (h : a.target? = some t) :
    ((i.next a).status, (i.next a).startsAt) = i.entry a.rule a.verdict.time t := by
  have ht : a.rule.target? a.verdict.status = some t := h
  simp only [next, apply, ht]
  split <;> rfl

/-- Every field after an application with a target, as long as the calendar
lasts. -/
theorem next_eq_settled (i : Instance) {a : Application} {t : Target} (h : a.target? = some t)
    (hc : a.InCalendar) :
    ∃ endsAt, expiry? a.policy a.verdict.time t = some endsAt ∧
      i.next a = { i.record a.rule a.verdict a.policy with
        status := (i.entry a.rule a.verdict.time t).1
        startsAt := (i.entry a.rule a.verdict.time t).2
        endsAt
        error := errorOf a.verdict t
        reason := reasonFor (i.entry a.rule a.verdict.time t).1 a.verdict
        resolved := i.status == .alerting &&
          (i.entry a.rule a.verdict.time t).1 == .normal } := by
  have ht : a.rule.target? a.verdict.status = some t := h
  have he : ∃ endsAt, expiry? a.policy a.verdict.time t = some endsAt := by
    -- only an active instance asks for an end
    by_cases hn : t = .normal
    · exact ⟨none, by rw [hn]; rfl⟩
    · obtain ⟨e, he⟩ := Option.isSome_iff_exists.1 (hc t h hn)
      refine ⟨some e, ?_⟩
      cases t with
      | normal => exact absurd rfl hn
      | alerting => simp [expiry?, he]
      | keep s => simp [expiry?, he]
  obtain ⟨endsAt, he⟩ := he
  refine ⟨endsAt, he, ?_⟩
  simp only [next, apply, ht, he]

/-- Within the calendar a verdict that counts leads to a transition. -/
theorem apply_eq_moved (i : Instance) {a : Application} (ha : a.counts = true)
    (hc : a.InCalendar) :
    ∃ transition, i.apply a.rule a.verdict a.policy = (i.next a, .moved transition) := by
  obtain ⟨t, ht⟩ := Application.exists_target ha
  obtain ⟨endsAt, he, -⟩ := i.next_eq_settled ht hc
  have ht' : a.rule.target? a.verdict.status = some t := ht
  simp only [next, apply, ht', he]
  exact ⟨_, rfl⟩

/-- What a breach makes of each state. Once alerting an instance stays so, a
pending one waits until it has held long enough, and any other starts anew. -/
theorem entry_alerting (i : Instance) (r : Rule) (t : Moment) :
    (i.status = .alerting ∧ i.entry r t .alerting = (.alerting, i.startsAt)) ∨
    (i.status = .pending ∧ i.entry r t .alerting =
      if r.holdFor.displacement ≤ t.nanos - (i.startsAt.getD t).nanos then (.alerting, some t)
      else (.pending, i.startsAt)) ∨
    (i.status ≠ .alerting ∧ i.status ≠ .pending ∧
      i.entry r t .alerting = (if r.holdFor.isZero then .alerting else .pending, some t)) := by
  cases h : i.status with
  | alerting => exact Or.inl ⟨rfl, by simp [entry, h]⟩
  | pending => exact Or.inr (Or.inl ⟨rfl, by simp only [entry, h]⟩)
  | normal => exact Or.inr (Or.inr ⟨by simp, by simp, by simp only [entry, h]⟩)
  | noData => exact Or.inr (Or.inr ⟨by simp, by simp, by simp only [entry, h]⟩)
  | error => exact Or.inr (Or.inr ⟨by simp, by simp, by simp only [entry, h]⟩)

/-- An application fails exactly when it leads out of the calendar. -/
theorem apply_outOfRange_iff (i : Instance) (a : Application) :
    (i.apply a.rule a.verdict a.policy).2 = .outOfRange ↔ ¬ a.InCalendar := by
  unfold Application.InCalendar Application.target? apply
  cases ht : a.rule.target? a.verdict.status with
  | none => simp
  | some t =>
      cases t with
      | normal => simp [expiry?]
      | alerting =>
          cases ha : a.verdict.time.after? a.policy.keepAlive <;> simp [expiry?, ha]
      | keep s =>
          cases ha : a.verdict.time.after? a.policy.keepAlive <;> simp [expiry?, ha]

end Instance

end Vigil
