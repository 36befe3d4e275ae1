import Vigil.Engine.Routine
import Vigil.Proofs.Cache.Rules
import Vigil.Proofs.Round.LabelSets

/-!
# Evaluations and what is sent for them

An evaluation is handled in three steps: a round applies its verdicts, the instances
that are due are sent, and they are noted as sent (`Cache.handle?`). A run of
evaluations is handled one after the other (`Cache.handleAll?`). This is what the
routine of a rule does with the verdicts that are in (`Worker.absorb_of_handle`), and
when the store has answered for the stale rows (`Worker.notify_of_handle`).
-/

namespace Vigil

/-- An instance is sent if it is resolved, or if it is active and the delay since the last
alert is over. -/
theorem Instance.needsSending?_eq_some_iff {i : Instance} {delay : Span} {now : Bool}
    (h : i.needsSending? delay = some now) :
    now = true ↔ i.resolved = true ∨ i.status.isActive = true ∧
      ∀ last, i.sentAt = some last →
        last.nanos + delay.displacement ≤ i.lastEvaluation.nanos := by
  unfold needsSending? at h
  cases hresolved : i.resolved with
  | true => simp_all
  | false =>
  cases hactive : i.status.isActive with
  | false => simp_all
  | true =>
  cases hlast : i.sentAt with
  | none => simp_all
  | some last =>
      rw [hresolved, hactive, hlast] at h
      obtain ⟨due, hdue, rfl⟩ := Option.map_eq_some_iff.1 h
      rw [Moment.after?, Moment.shift?_eq_some_iff] at hdue
      rw [decide_eq_true_eq]
      simp only [Option.some.injEq, forall_eq', Bool.false_eq_true, false_or, true_and]
      rw [← hdue.1]
      rfl

namespace Alert

variable {delay : Span} {i : Instance} {is sent : List Instance}

theorem due?_cons_eq_some_iff :
    due? delay (i :: is) = some sent ↔
      ∃ now others, i.needsSending? delay = some now ∧ due? delay is = some others ∧
        (if now then i :: others else others) = sent := by
  rw [due?]
  constructor
  · intro h
    obtain ⟨now, hnow, h⟩ := Option.bind_eq_some_iff.1 h
    obtain ⟨others, hothers, h⟩ := Option.bind_eq_some_iff.1 h
    exact ⟨now, others, hnow, hothers, Option.some.inj h⟩
  · rintro ⟨now, others, hnow, hothers, rfl⟩
    rw [hnow, hothers]
    rfl

/-- The instances that are sent are those that need it, in order. -/
theorem eq_filter_of_due? (h : due? delay is = some sent) :
    sent = is.filter fun i => i.needsSending? delay == some true := by
  induction is generalizing sent with
  | nil => exact (Option.some.inj h).symm
  | cons i is ih =>
      obtain ⟨now, others, hnow, hothers, rfl⟩ := due?_cons_eq_some_iff.1 h
      obtain rfl := ih hothers
      cases now with
      | true => rw [List.filter_cons_of_pos (by rw [hnow]; rfl), if_pos rfl]
      | false => rw [List.filter_cons_of_neg (by rw [hnow]; decide), if_neg Bool.false_ne_true]

theorem isSome_needsSending?_of_due? (h : due? delay is = some sent) (hi : i ∈ is) :
    (i.needsSending? delay).isSome = true := by
  induction is generalizing sent with
  | nil => cases hi
  | cons j is ih =>
      obtain ⟨now, others, hnow, hothers, -⟩ := due?_cons_eq_some_iff.1 h
      rcases List.mem_cons.1 hi with rfl | hi
      · rw [hnow]
        rfl
      · exact ih hothers hi

end Alert

/-- What an evaluation found, with the labels that come from outside and the clock. -/
structure Finding where
  rule : Rule
  verdicts : List Verdict
  extra : Labels
  now : Moment

/-- What became of it, and what was sent. -/
structure Handled where
  round : Round
  sent : List Instance

namespace Cache

/-- Handles one evaluation. There is no answer if the round has none, or if the delay of
an instance leaves the calendar. -/
def handle? (settings : StateSettings) (c : Cache) (f : Finding) : Option (Handled × Cache) :=
  match c.round settings f.now f.rule f.verdicts f.extra with
  | (none, _) => none
  | (some round, c) =>
    (Alert.due? settings.resendDelay round.processed).map fun sent =>
      (⟨round, sent⟩, c.markSent sent)

/-- Handles evaluations one after the other. -/
def handleAll? (settings : StateSettings) (c : Cache) : List Finding → Option (List Handled × Cache)
  | [] => some ([], c)
  | f :: fs => do
    let (x, c) ← c.handle? settings f
    let (xs, c) ← handleAll? settings c fs
    return (x :: xs, c)

variable {settings : StateSettings} {c c' : Cache} {f : Finding} {x : Handled}

theorem handle?_eq_some_iff :
    c.handle? settings f = some (x, c') ↔
      ∃ swept, c.round settings f.now f.rule f.verdicts f.extra = (some x.round, swept) ∧
        Alert.due? settings.resendDelay x.round.processed = some x.sent ∧
        c' = swept.markSent x.sent := by
  unfold handle?
  constructor
  · intro h
    split at h
    · cases h
    · rename_i round swept hround
      obtain ⟨sent, hsent, heq⟩ := Option.map_eq_some_iff.1 h
      cases heq
      exact ⟨swept, hround, hsent, rfl⟩
  · rintro ⟨swept, hround, hsent, rfl⟩
    rw [hround]
    dsimp only
    rw [hsent]
    rfl

theorem handleAll?_cons_eq_some_iff {fs : List Finding} {ys : List Handled} :
    c.handleAll? settings (f :: fs) = some (ys, c') ↔
      ∃ x swept xs, c.handle? settings f = some (x, swept) ∧
        swept.handleAll? settings fs = some (xs, c') ∧ ys = x :: xs := by
  constructor
  · intro h
    obtain ⟨⟨x, swept⟩, hx, h⟩ := Option.bind_eq_some_iff.1 h
    obtain ⟨⟨xs, c⟩, hxs, h⟩ := Option.bind_eq_some_iff.1 h
    cases h
    exact ⟨x, swept, xs, hx, hxs, rfl⟩
  · rintro ⟨x, swept, xs, hx, hxs, rfl⟩
    unfold handleAll?
    rw [hx]
    dsimp only [Option.bind_eq_bind, Option.bind_some]
    rw [hxs]
    rfl

end Cache

/-! ## The routine -/

/-- What the evaluation of a job found. -/
def Job.finding (job : Job) (vs : List Verdict) (d : Shared) : Finding where
  rule := job.evaluation.rule
  verdicts := vs
  extra := job.evaluation.rule.reservedLabels
    (if d.scheduler.disableFolderLabel then none else some job.evaluation.folder)
  now := d.clock

namespace Worker

variable {w : Worker} {job : Job} {vs : List Verdict} {d d' : Shared} {x : Handled} {c : Cache}

theorem cache_annotate (d : Shared) (r : Rule) (cs : List Change) :
    (cs.foldl (fun d c => d.annotate (c.note r)) d).cache = d.cache ∧
      (cs.foldl (fun d c => d.annotate (c.note r)) d).state = d.state := by
  induction cs generalizing d with
  | nil => exact ⟨rfl, rfl⟩
  | cons c cs ih => exact ih _

/-- A routine applies the verdicts, and goes on to the notifier if no row is stale. -/
theorem absorb_of_handle (h : d.cache.handle? d.state (job.finding vs d) = some (x, c)) :
    ∃ d' : Shared, d'.cache.markSent x.sent = c ∧ d'.state = d.state ∧
      w.absorb job vs d =
        if x.round.stale = [] then w.notify job x.round.processed d'
        else
        let eviction := ⟨job.evaluation.rule, d.clock, x.round.stale⟩
        ({ w with phase := .evicting job x.round.processed eviction }, d') := by
  obtain ⟨swept, hround, -, rfl⟩ := Cache.handle?_eq_some_iff.1 h
  obtain ⟨hcache, hstate⟩ := cache_annotate { d with cache := swept } job.evaluation.rule
    x.round.changes
  refine ⟨_, by rw [hcache], hstate, ?_⟩
  unfold absorb Shared.round
  dsimp only [Job.finding] at hround ⊢
  rw [hround]
  dsimp only [Eviction.isDone]
  simp only [List.isEmpty_iff]

/-- It sends what is due and notes that, at once or when the stale rows are dropped. -/
theorem notify_of_handle (h : d.cache.handle? d.state (job.finding vs d) = some (x, c))
    (hcache : d'.cache.markSent x.sent = c) (hstate : d'.state = d.state) :
    w.notify job x.round.processed d' =
      if x.sent = [] then w.complete job d'
      else ({ w with phase := .sending job }, { d' with cache := c }.send w.key
        (x.sent.map (Alert.ofInstance · d'.scheduler.appUrl))) := by
  obtain ⟨-, -, hdue, -⟩ := Cache.handle?_eq_some_iff.1 h
  unfold notify
  rw [hstate, hdue, ← hcache]
  cases x.sent with
  | nil => rfl
  | cons i sent => rfl

end Worker

end Vigil
