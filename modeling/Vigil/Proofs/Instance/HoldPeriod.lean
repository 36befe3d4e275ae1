import Mathlib.Data.List.DropRight
import Mathlib.Tactic.ByContra
import Vigil.Proofs.Instance.Run

/-!
# The hold period

A breach has to hold before a rule fires. The instance keeps no list of its
verdicts to measure that: it has a state and the moment the state began. This
file measures the streak itself, the verdicts since the last one that was no
breach, and shows that the two agree after every run (`status_iff_held`), with
verdicts in any order of time.

The link is the start of a pending state, which is always the time of the first
verdict of the streak (`Measures.waiting`).
-/

namespace Vigil

namespace Application

/-- Verdicts applied under one rule, each with a policy of its own. -/
def allUnder (r : Rule) (vs : List (Verdict × TransitionPolicy)) : List Application :=
  vs.map fun vp => ⟨r, vp.1, vp.2⟩

/-- Whether the verdict counts as a breach: by itself or by a policy of the rule. -/
def breaches (a : Application) : Bool := a.target? == some .alerting

/-- The latest verdicts of a run, as far back as all of them are breaches. -/
def streak (as : List Application) : List Application :=
  (as.filter counts).rtakeWhile breaches

/-- Some verdict of the streak came the whole period after the first. -/
def Held (period : Span) (streak : List Application) : Prop :=
  ∃ first, streak.head? = some first ∧ (period.nanos = 0 ∨
    ∃ a ∈ streak, (period.nanos : Int) ≤ a.verdict.time.nanos - first.verdict.time.nanos)

instance (period : Span) (streak : List Application) : Decidable (Held period streak) :=
  match streak with
  | [] => isFalse (by rintro ⟨first, hfirst, -⟩; simp at hfirst)
  | first :: rest =>
    decidable_of_iff (period.nanos = 0 ∨ ∃ a ∈ first :: rest,
        (period.nanos : Int) ≤ a.verdict.time.nanos - first.verdict.time.nanos)
      ⟨fun h => ⟨first, rfl, h⟩, by rintro ⟨f, hf, h⟩; cases hf; exact h⟩

theorem breaches_iff {a : Application} : a.breaches = true ↔ a.target? = some .alerting := by
  simp [breaches]

theorem streak_snoc_of_pending {as : List Application} {a : Application}
    (ha : a.counts = false) : streak (as ++ [a]) = streak as := by
  simp [streak, List.filter_append, ha]

theorem streak_snoc {as : List Application} {a : Application} (ha : a.counts = true) :
    streak (as ++ [a]) = if a.breaches then streak as ++ [a] else [] := by
  have hf : (as ++ [a]).filter counts = as.filter counts ++ [a] := by
    simp [List.filter_append, ha]
  rw [streak, hf, List.rtakeWhile_concat]
  rfl

theorem held_singleton (period : Span) (a : Application) :
    Held period [a] ↔ period.nanos = 0 := by
  constructor
  · rintro ⟨first, hfirst, h | ⟨b, hb, h⟩⟩
    · exact h
    · simp only [List.head?_cons, Option.some.injEq] at hfirst
      rw [List.mem_singleton] at hb
      subst hfirst hb
      omega
  · intro h
    exact ⟨a, rfl, Or.inl h⟩

theorem held_snoc {period : Span} {as : List Application} {a first : Application}
    (hfirst : as.head? = some first) :
    Held period (as ++ [a]) ↔ Held period as ∨
      (period.nanos : Int) ≤ a.verdict.time.nanos - first.verdict.time.nanos := by
  have hhead : (as ++ [a]).head? = some first := by
    rw [List.head?_append, hfirst]
    rfl
  constructor
  · rintro ⟨f, hf, h | ⟨b, hb, h⟩⟩
    · exact Or.inl ⟨first, hfirst, Or.inl h⟩
    · obtain rfl : first = f := Option.some.inj (hhead.symm.trans hf)
      rw [List.mem_append, List.mem_singleton] at hb
      rcases hb with hb | rfl
      · exact Or.inl ⟨first, hfirst, Or.inr ⟨b, hb, h⟩⟩
      · exact Or.inr h
  · rintro (⟨f, hf, h | ⟨b, hb, h⟩⟩ | h)
    · exact ⟨first, hhead, Or.inl h⟩
    · obtain rfl : first = f := Option.some.inj (hfirst.symm.trans hf)
      exact ⟨first, hhead, Or.inr ⟨b, List.mem_append_left _ hb, h⟩⟩
    · exact ⟨first, hhead, Or.inr ⟨a, by simp, h⟩⟩

end Application

open Application

namespace Instance

/-- What state and start say about the streak so far. -/
structure Measures (i : Instance) (period : Span) (streak : List Application) : Prop where
  resting : streak = [] → i.status ≠ .alerting ∧ i.status ≠ .pending
  firing : Held period streak → i.status = .alerting
  waiting : ∀ first, streak.head? = some first → ¬ Held period streak →
    i.status = .pending ∧ i.startsAt = some first.verdict.time

theorem Measures.status_iff {i : Instance} {period : Span} {streak : List Application}
    (h : i.Measures period streak) :
    (i.status = .alerting ↔ Held period streak) ∧
    (i.status = .pending ↔ streak ≠ [] ∧ ¬ Held period streak) := by
  by_cases hheld : Held period streak
  · have hs := h.firing hheld
    simp [hheld, hs]
  · cases hhead : streak.head? with
    | none =>
        have hnil : streak = [] := List.head?_eq_none_iff.1 hhead
        subst hnil
        simp [hheld, h.resting rfl]
    | some first =>
        have hne : streak ≠ [] := fun hnil => by simp [hnil] at hhead
        have hs := (h.waiting first hhead hheld).1
        simp [hheld, hne, hs]

/-- A verdict that is no breach ends the streak. -/
theorem measures_next_of_not_breaches (i : Instance) {a : Application} {period : Span}
    (ha : a.counts = true) (hb : a.breaches = false) : (i.next a).Measures period [] := by
  obtain ⟨t, ht⟩ := exists_target ha
  have hstatus : (i.next a).status = (i.entry a.rule a.verdict.time t).1 :=
    congrArg Prod.fst (i.next_entry ht)
  refine ⟨fun _ => ?_, ?_, ?_⟩
  · rw [hstatus]
    cases t with
    | normal => simp [entry]
    | alerting => simp [breaches, ht] at hb
    | keep kept =>
        obtain ⟨-, rfl | rfl⟩ := Rule.target?_eq_keep ht
        · simp [entry]
        · simp [entry]
  · rintro ⟨first, hfirst, -⟩
    simp at hfirst
  · intro first hfirst
    simp at hfirst

/-- A breach prolongs the streak, and the instance measures the longer one. -/
theorem Measures.next {i : Instance} {streak : List Application} {a : Application}
    (h : i.Measures a.rule.holdFor streak) (hb : a.breaches = true)
    (hperiod : a.rule.holdFor.nanos ≤ Span.longestDisplacement) :
    (i.next a).Measures a.rule.holdFor (streak ++ [a]) := by
  have hentry := i.next_entry (breaches_iff.1 hb)
  have hdisp : a.rule.holdFor.displacement = (a.rule.holdFor.nanos : Int) := by
    rw [Span.displacement, if_pos hperiod]
  have hsi := h.status_iff
  obtain ⟨hs, he⟩ | ⟨hs, he⟩ | ⟨hs, hs', he⟩ := i.entry_alerting a.rule a.verdict.time
  -- it fires already, and a streak that held still does
  · rw [he, Prod.mk.injEq] at hentry
    have hheld := hsi.1.1 hs
    obtain ⟨first, hfirst, -⟩ := hsi.1.1 hs
    have hlong : Held a.rule.holdFor (streak ++ [a]) := (held_snoc hfirst).2 (Or.inl hheld)
    exact ⟨fun hnil => absurd hnil (by simp), fun _ => hentry.1,
      fun _ _ hnot => absurd hlong hnot⟩
  -- it waits since the first breach of the streak
  · obtain ⟨hne, hnot⟩ := hsi.2.1 hs
    obtain ⟨first, hfirst⟩ := Option.ne_none_iff_exists'.1 (mt List.head?_eq_none_iff.1 hne)
    have hstart := (h.waiting first hfirst hnot).2
    rw [he, hdisp, hstart, Option.getD_some] at hentry
    have hsnoc : Held a.rule.holdFor (streak ++ [a]) ↔ _ := held_snoc hfirst
    refine ⟨fun hnil => absurd hnil (by simp), ?_, ?_⟩
    · intro hlong
      rw [if_pos ((hsnoc.1 hlong).resolve_left hnot), Prod.mk.injEq] at hentry
      exact hentry.1
    · intro f hf hshort
      rw [if_neg fun hle => hshort (hsnoc.2 (Or.inr hle)), Prod.mk.injEq] at hentry
      have hhead : (streak ++ [a]).head? = some first := by
        rw [List.head?_append, hfirst]
        rfl
      obtain rfl : first = f := Option.some.inj (hhead.symm.trans hf)
      exact hentry
  -- any other state has no streak behind it, so this breach is the first
  · have hnil : streak = [] := by
      by_contra hne
      by_cases hheld : Held a.rule.holdFor streak
      · exact hs (h.firing hheld)
      · exact hs' (hsi.2.2 ⟨hne, hheld⟩)
    rw [he, Prod.mk.injEq] at hentry
    subst hnil
    refine ⟨fun hnil => absurd hnil (by simp), ?_, ?_⟩
    · intro hheld
      have hzero : a.rule.holdFor.nanos = 0 := (held_singleton _ a).1 hheld
      rw [hentry.1, if_pos (by simp [Span.isZero, hzero])]
    · intro f hf hnot
      have hpos : a.rule.holdFor.nanos ≠ 0 := fun hzero => hnot ((held_singleton _ a).2 hzero)
      obtain rfl : a = f := by simpa using hf
      exact ⟨by rw [hentry.1, if_neg (by simp [Span.isZero, hpos])], hentry.2⟩

theorem measures_drive (origin : Rule) (labels : Labels) (history : Nat) {r : Rule}
    (hperiod : r.holdFor.nanos ≤ Span.longestDisplacement) {as : List Application}
    (hr : ∀ a ∈ as, a.rule = r) :
    ((new origin labels history).drive as).Measures r.holdFor (streak as) := by
  induction as using List.reverseRecOn with
  | nil =>
      refine ⟨fun _ => ⟨by simp [new], by simp [new]⟩, ?_, ?_⟩
      · rintro ⟨first, hfirst, -⟩
        simp [streak] at hfirst
      · intro first hfirst
        simp [streak] at hfirst
  | append_singleton as a ih =>
      have hbefore := ih fun b hb => hr b (List.mem_append_left _ hb)
      have hrule : a.rule = r := hr a (by simp)
      rw [drive_snoc]
      by_cases ha : a.counts = true
      · rw [streak_snoc ha]
        by_cases hb : a.breaches = true
        · rw [if_pos hb]
          subst hrule
          exact hbefore.next hb hperiod
        · rw [if_neg hb]
          exact measures_next_of_not_breaches _ ha (by simpa using hb)
      · have ha' : a.counts = false := by simpa using ha
        rw [streak_snoc_of_pending ha', next_of_pending _ ha']
        exact hbefore

/-- **The hold period is exact.** After any verdicts under one rule, a new instance
is alerting exactly if the present streak has held for the period of the rule, and
pending exactly if there is a streak that has not. So it never fires early, and a
verdict that completes the period never leaves it pending. -/
theorem status_iff_held (origin r : Rule) (labels : Labels) (history : Nat)
    (vs : List (Verdict × TransitionPolicy))
    (hperiod : r.holdFor.nanos ≤ Span.longestDisplacement) :
    let as := allUnder r vs
    let i := (new origin labels history).drive as
    (i.status = .alerting ↔ streak as ≠ [] ∧ Held r.holdFor (streak as)) ∧
    (i.status = .pending ↔ streak as ≠ [] ∧ ¬ Held r.holdFor (streak as)) ∧
    (∀ first, (streak as).head? = some first → i.status = .alerting →
      ∃ a ∈ streak as,
        (r.holdFor.nanos : Int) ≤ a.verdict.time.nanos - first.verdict.time.nanos) ∧
    (∀ first a, (streak as).head? = some first → a ∈ streak as →
      (r.holdFor.nanos : Int) ≤ a.verdict.time.nanos - first.verdict.time.nanos →
      i.status ≠ .pending) := by
  intro as i
  have hr : ∀ a ∈ as, a.rule = r := by
    intro a ha
    obtain ⟨vp, -, rfl⟩ := List.mem_map.1 ha
    rfl
  have hsi := (measures_drive origin labels history hperiod hr).status_iff
  have hne : Held r.holdFor (streak as) → streak as ≠ [] := by
    rintro ⟨first, hfirst, -⟩ hnil
    simp [hnil] at hfirst
  refine ⟨hsi.1.trans ⟨fun h => ⟨hne h, h⟩, fun h => h.2⟩, hsi.2, ?_, ?_⟩
  · intro first hfirst hs
    -- without a period the first breach itself is late enough
    obtain ⟨f, hf, hzero | hlong⟩ := hsi.1.1 hs
    · exact ⟨first, List.mem_of_head? hfirst, by omega⟩
    · obtain rfl : first = f := Option.some.inj (hfirst.symm.trans hf)
      exact hlong
  · intro first a hfirst ha hlong hs
    exact (hsi.2.1 hs).2 ⟨first, hfirst, Or.inr ⟨a, ha, hlong⟩⟩

/-- A rule that fires after ten seconds and takes missing data for a breach. -/
def patient : Rule := { holdFor := .ofSeconds 10, onNoData := .alerting }

/-- A breach that ends, and a second one that goes on through missing data and a
clock set back. -/
def flaring : List (Verdict × TransitionPolicy) :=
  [(.alerting, 0), (.normal, 9), (.alerting, 12), (.noData, 11), (.pending, 40),
    (.alerting, 22)].map fun (status, second) =>
      ({ labels := ∅, status, time := ⟨second * nanosPerSecond⟩ }, ⟨.ofSeconds 90, 10⟩)

theorem status_iff_held_flaring :
    patient.holdFor.nanos ≤ Span.longestDisplacement ∧
      ((new patient ∅ 10).drive (allUnder patient flaring)).status = .alerting ∧
      ((new patient ∅ 10).drive (allUnder patient flaring.dropLast)).status = .pending := by
  have hperiod : patient.holdFor.nanos ≤ Span.longestDisplacement := by decide
  have hwhole := status_iff_held patient patient ∅ 10 flaring hperiod
  have hpart := status_iff_held patient patient ∅ 10 flaring.dropLast hperiod
  exact ⟨hperiod, hwhole.1.2 (by decide), hpart.2.1.2 (by decide)⟩

end Instance

end Vigil
