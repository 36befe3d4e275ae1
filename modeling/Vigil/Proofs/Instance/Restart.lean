import Mathlib.Data.List.Induction
import Vigil.Config
import Vigil.Proofs.Cache.Names
import Vigil.Proofs.Instance.Run
import Vigil.Store

/-!
# An instance that goes on from its row

A row drops what an instance remembers besides its state: the window, the error, whether the
last verdict resolved it, and when it was last sent. So an instance that is restored from a
row is not the one that was saved. It is an image of it (`Instance.Image`): the fields that
decide what a verdict does are the same. One verdict answers the same for both and leaves an
image again (`Image.apply`), and the first one that counts settles the error and the
resolution anew (`Image.agrees_next`). Hence no run of verdicts tells the two apart
(`Instance.restored_image`).
-/

namespace Vigil

namespace Instance

/-- The instances that come about: new ones, moved by verdicts, marked by the notifier and
restored from their rows. -/
inductive Reached : Instance → Prop
  | new (r : Rule) (labels : Labels) (history : Nat) : Reached (.new r labels history)
  | next {i : Instance} (h : Reached i) (a : Application) : Reached (i.next a)
  | sent {i : Instance} (h : Reached i) (t : Moment) : Reached { i with sentAt := some t }
  | restored {i j : Instance} (h : Reached i) {r : Rule} {history : Nat}
      (hj : (Row.ofInstance i).restore? r history = some j) : Reached j

/-- `j` goes on where `i` stands, and has not been sent. -/
structure Image (i j : Instance) : Prop where
  ruleKey : j.ruleKey = i.ruleKey
  labels : j.labels = i.labels
  id : j.id = i.id
  status : j.status = i.status
  reason : j.reason = i.reason
  startsAt : j.startsAt = i.startsAt
  endsAt : j.endsAt = i.endsAt
  lastEvaluation : j.lastEvaluation = i.lastEvaluation
  unsent : j.sentAt = none

/-- What a row drops and the next verdict that counts sets anew. -/
structure Agrees (i j : Instance) : Prop where
  error : j.error = i.error
  resolved : j.resolved = i.resolved

/-! ## The row -/

/-- A restored instance has the names of its rule and the state of its row. -/
theorem restore?_eq_some {row : Row} {r : Rule} {history : Nat} {j : Instance}
    (h : row.restore? r history = some j) :
    history ≤ Window.maxInitialCapacity ∧ j = { new r row.labels history with
      status := row.status, reason := row.reason, startsAt := row.since, endsAt := row.endsAt,
      lastEvaluation := row.lastEvaluation } := by
  unfold Row.restore? new? at h
  split at h
  · rename_i hfits
    exact ⟨hfits, (Option.some.inj h).symm⟩
  · cases h

theorem Reached.named {i : Instance} (h : Reached i) : ∃ k id, i.NamedAs k id := by
  induction h with
  | new r labels history => exact ⟨_, _, namedAs_new r labels history⟩
  | next _ a ih =>
      obtain ⟨k, id, hi⟩ := ih
      exact ⟨k, id, hi.apply a.rule a.verdict a.policy⟩
  | sent _ t ih =>
      obtain ⟨k, id, hi⟩ := ih
      exact ⟨k, id, ⟨hi.ruleKey, hi.labels, hi.id⟩⟩
  | restored _ hj =>
      obtain ⟨-, rfl⟩ := restore?_eq_some hj
      exact ⟨_, _, ⟨rfl, rfl, rfl⟩⟩

/-- There is an image as long as there is room for its window. -/
theorem Reached.exists_image {i : Instance} (h : Reached i) {r : Rule} (hr : r.key = i.ruleKey)
    {history : Nat} (hfits : history ≤ Window.maxInitialCapacity) :
    ∃ j, (Row.ofInstance i).restore? r history = some j ∧ Image i j := by
  obtain ⟨k, id, hnamed⟩ := h.named
  refine ⟨_, by rw [Row.restore?, new?, if_pos hfits, Option.map_some], ?_⟩
  exact {
    ruleKey := hr
    labels := rfl
    id := hnamed.labels.trans hnamed.id.symm
    status := rfl
    reason := rfl
    startsAt := rfl
    endsAt := rfl
    lastEvaluation := rfl
    unsent := rfl }

/-! ## One verdict -/

/-- Out of the calendar neither the error nor the resolution is reached. -/
theorem agrees_next_of_not_inCalendar (i : Instance) {a : Application} (ha : ¬ a.InCalendar) :
    Agrees i (i.next a) := by
  have hout := (i.apply_outOfRange_iff a).2 ha
  unfold next
  unfold apply at hout ⊢
  split
  · exact ⟨rfl, rfl⟩
  · rename_i ht
    rw [ht] at hout
    dsimp only at hout ⊢
    split
    · exact ⟨rfl, rfl⟩
    · rename_i he
      rw [he] at hout
      cases hout

namespace Image

variable {i j : Instance}

theorem entry (h : Image i j) (r : Rule) (t : Moment) (target : Target) :
    j.entry r t target = i.entry r t target := by
  unfold Instance.entry
  rw [h.status, h.startsAt]

theorem standing (h : Image i j) : j.standing = i.standing := by
  unfold Instance.standing
  rw [h.status, h.reason]

/-- **One verdict.** It does the same to both. -/
theorem apply (h : Image i j) (a : Application) :
    (j.apply a.rule a.verdict a.policy).2 = (i.apply a.rule a.verdict a.policy).2 ∧
      Image (i.next a) (j.next a) := by
  unfold next Instance.apply
  cases a.rule.target? a.verdict.status with
  | none => exact ⟨rfl, h⟩
  | some target =>
      dsimp only
      rw [h.entry]
      cases expiry? a.policy a.verdict.time target with
      | none =>
          exact ⟨rfl, ⟨h.ruleKey, h.labels, h.id, rfl, h.reason, rfl, h.endsAt, rfl, h.unsent⟩⟩
      | some endsAt =>
          refine ⟨?_, ⟨h.ruleKey, h.labels, h.id, rfl, rfl, rfl, rfl, rfl, h.unsent⟩⟩
          rw [h.standing]
          rfl

theorem drive (h : Image i j) (as : List Application) : Image (i.drive as) (j.drive as) := by
  induction as generalizing i j with
  | nil => exact h
  | cons a as ih => exact ih (h.apply a).2

/-- A verdict that counts and stays in the calendar makes both agree, and whoever agrees
does so after any verdict. -/
theorem agrees_next (h : Image i j) (a : Application)
    (hor : Agrees i j ∨ a.counts = true ∧ a.InCalendar) : Agrees (i.next a) (j.next a) := by
  cases ht : a.target? with
  | none =>
      have hpending := Application.target?_eq_none_iff.1 ht
      rw [next_of_pending i hpending, next_of_pending j hpending]
      exact hor.resolve_right fun hc => Bool.noConfusion (hc.1.symm.trans hpending)
  | some target =>
      by_cases hc : a.InCalendar
      · obtain ⟨_, -, hi⟩ := i.next_eq_settled ht hc
        obtain ⟨_, -, hj⟩ := j.next_eq_settled ht hc
        rw [hi, hj, h.entry, h.status]
        exact ⟨rfl, rfl⟩
      · have hagrees := hor.resolve_right fun hcount => hc hcount.2
        have hi := i.agrees_next_of_not_inCalendar hc
        have hj := j.agrees_next_of_not_inCalendar hc
        exact ⟨hj.error.trans (hagrees.error.trans hi.error.symm),
          hj.resolved.trans (hagrees.resolved.trans hi.resolved.symm)⟩

theorem agrees_drive (h : Image i j) {as : List Application}
    (hcounts : ∃ a ∈ as, a.counts = true ∧ a.InCalendar) :
    Agrees (i.drive as) (j.drive as) := by
  induction as using List.reverseRecOn with
  | nil =>
      obtain ⟨a, ha, -⟩ := hcounts
      cases ha
  | append_singleton as a ih =>
      rw [drive_snoc, drive_snoc]
      refine (h.drive as).agrees_next a ?_
      obtain ⟨b, hb, hcount⟩ := hcounts
      rcases List.mem_append.1 hb with hb | hb
      · exact Or.inl (ih ⟨b, hb, hcount⟩)
      · exact Or.inr (List.mem_singleton.1 hb ▸ hcount)

theorem isStale? (h : Image i j) (now : Moment) (r : Rule) (multiplier : Nat) :
    j.isStale? now r multiplier = i.isStale? now r multiplier := by
  unfold Instance.isStale?
  rw [h.lastEvaluation]

/-- Whoever has not been sent is due no later. -/
theorem needsSending? (h : Image i j) (hagrees : Agrees i j) {resendDelay : Span}
    (hi : i.needsSending? resendDelay = some true) :
    j.needsSending? resendDelay = some true := by
  unfold Instance.needsSending? at hi ⊢
  rw [hagrees.resolved, h.status, h.unsent]
  split
  · rfl
  · rename_i hresolved
    rw [if_neg hresolved] at hi
    split
    · rename_i hactive
      rw [if_pos hactive] at hi
      cases hi
    · rfl

end Image

/-! ## A run -/

/-- **A restart is invisible.** Any instance is restored from its row by the rule that it
names, as long as the rule's window can be set up. From there on every run of verdicts does
the same to both: each verdict has the same outcome, and after each of them the two have the
same names, state, reason, start, end and last evaluation, and are stale at the same times.
Once a verdict counts that does not lead out of the calendar, they also agree on the error
and on the resolution for good, and the restored one must be sent whenever the other must. -/
theorem restored_image {i : Instance} (hi : i.Reached) {r : Rule} (hr : r.key = i.ruleKey)
    (settings : StateSettings) (hfits : settings.historyFor r ≤ Window.maxInitialCapacity) :
    ∃ j, (Row.ofInstance i).restore? r (settings.historyFor r) = some j ∧
      ∀ as : List Application,
        (∀ a : Application, ((j.drive as).apply a.rule a.verdict a.policy).2 =
          ((i.drive as).apply a.rule a.verdict a.policy).2) ∧
        Image (i.drive as) (j.drive as) ∧
        (∀ now rule multiplier, (j.drive as).isStale? now rule multiplier =
          (i.drive as).isStale? now rule multiplier) ∧
        ((∃ a ∈ as, a.counts = true ∧ a.InCalendar) →
          Agrees (i.drive as) (j.drive as) ∧
            ∀ resendDelay, (i.drive as).needsSending? resendDelay = some true →
              (j.drive as).needsSending? resendDelay = some true) := by
  obtain ⟨j, hj, himage⟩ := hi.exists_image hr hfits
  refine ⟨j, hj, fun as => ?_⟩
  have hafter := himage.drive as
  refine ⟨fun a => (hafter.apply a).1, hafter, hafter.isStale?, fun hcounts => ?_⟩
  have hagrees := himage.agrees_drive hcounts
  exact ⟨hagrees, fun _ => hafter.needsSending? hagrees⟩

/-- A rule that fires after a minute and keeps its failures apart. -/
def steady : Rule := { uid := "a", holdFor := .ofSeconds 60, onError := .error }

/-- A verdict on it at a time in seconds, lasting three minutes. -/
def ofSteady (status : Status) (seconds : Int) (error : Option String) : Application :=
  ⟨steady, { labels := ∅, status, time := ⟨seconds * nanosPerSecond⟩, error },
    ⟨.ofSeconds 180, 10⟩⟩

/-- An instance that has failed, with an alert sent. -/
def failed : Instance :=
  { (new steady ∅ 10).drive [ofSteady .alerting 0 none, ofSteady .alerting 60 none,
      ofSteady .error 70 (some "unreachable")] with sentAt := some ⟨70 * nanosPerSecond⟩ }

/-- It fails again. -/
def failsAgain : List Application :=
  [ofSteady .pending 80 none, ofSteady .error 90 (some "refused")]

/-- A restart forgets the error until it fails again. Then both are due, the other because
the resend delay is over. -/
theorem restored_image_failsAgain :
    ∃ j, (Row.ofInstance failed).restore? steady (({} : StateSettings).historyFor steady) =
        some j ∧
      failed.error = some "unreachable" ∧ j.error = none ∧
      (j.drive failsAgain).error = some "refused" ∧ (j.drive failsAgain).status = .error ∧
      (j.drive failsAgain).startsAt = some ⟨70 * nanosPerSecond⟩ ∧
      (j.drive failsAgain).needsSending? (.ofSeconds 20) = some true := by
  have hreached : failed.Reached :=
    .sent (.next (.next (.next (.new steady ∅ 10) _) _) _) _
  obtain ⟨j, hj, hruns⟩ := restored_image hreached (r := steady) rfl {} (by decide)
  obtain ⟨-, himage, -, hsettled⟩ := hruns failsAgain
  obtain ⟨hagrees, hdue⟩ := hsettled
    ⟨_, List.mem_cons_of_mem _ (List.mem_singleton_self _), by decide, fun _ _ _ => by decide⟩
  have hforgets : j.error = none := by
    obtain ⟨-, rfl⟩ := restore?_eq_some hj
    rfl
  exact ⟨j, hj, by decide +kernel, hforgets, hagrees.error.trans (by decide +kernel),
    himage.status.trans (by decide +kernel), himage.startsAt.trans (by decide +kernel),
    hdue _ (by decide +kernel)⟩

end Instance

end Vigil
