import Vigil.Proofs.Cache.Rules
import Vigil.Proofs.Round.LabelSets

/-!
# When instances were last evaluated

An instance is dated by the last verdict that reached it. What happens to a cache
between two moments either leaves that date alone or comes with a new one, and the
relation `Cache.Follows` says which new ones there may be. Removing instances, noting
that they were sent and dropping stale ones bring none; a round brings the times of its
verdicts, and only to the instances of its rule (`Cache.follows_round`).
-/

namespace Vigil

namespace Cache

/-- The instances of `c'` were in `c` with the same date, or `dated` says which rule
they are of and what their date may be. -/
def Follows (c' c : Cache) (dated : RuleKey → Moment → Prop) : Prop :=
  ∀ k id i', c'.get? k id = some i' →
    (∃ i, c.get? k id = some i ∧ i'.lastEvaluation = i.lastEvaluation) ∨
      dated k i'.lastEvaluation

/-- No new dates. -/
def undated : RuleKey → Moment → Prop := fun _ _ => False

variable {c c' c'' : Cache} {dated : RuleKey → Moment → Prop}

theorem Follows.refl (c : Cache) (dated : RuleKey → Moment → Prop) : Follows c c dated :=
  fun _ _ i hi => Or.inl ⟨i, hi, rfl⟩

theorem Follows.trans (h' : Follows c'' c' undated) (h : Follows c' c dated) :
    Follows c'' c dated := by
  intro k id i'' hi''
  obtain ⟨i', hi', hdate⟩ := (h' k id i'' hi'').resolve_right not_false
  rcases h k id i' hi' with ⟨i, hi, hdate'⟩ | hnew
  · exact Or.inl ⟨i, hi, hdate.trans hdate'⟩
  · exact Or.inr (hdate ▸ hnew)

theorem Follows.mono {dated' : RuleKey → Moment → Prop} (h : Follows c' c dated)
    (hsub : ∀ k t, dated k t → dated' k t) : Follows c' c dated' :=
  fun k id i' hi' => (h k id i' hi').imp_right (hsub k _)

/-- A change to one rule's instances is seen at that rule alone. -/
theorem follows_setRule {k : RuleKey} {rs : RuleInstances}
    (h : ∀ id i', rs.find? id = some i' →
      (∃ i, c.get? k id = some i ∧ i'.lastEvaluation = i.lastEvaluation) ∨
        dated k i'.lastEvaluation) :
    Follows (c.setRule k rs) c dated := by
  intro other id i' hi'
  rw [get?_setRule] at hi'
  by_cases hk : other = k
  · rw [if_pos hk] at hi'
    rw [hk]
    exact h id i' hi'
  · rw [if_neg hk] at hi'
    exact Or.inl ⟨i', hi', rfl⟩

/-! ## Nothing new -/

theorem follows_removeRule (c : Cache) (k : RuleKey) : Follows (c.removeRule k).2 c undated :=
  follows_setRule fun _ _ h => absurd h nofun

theorem follows_markSent (c : Cache) (sent : List Instance) :
    Follows (c.markSent sent) c undated := by
  intro k id i' hi'
  rw [get?_markSent] at hi'
  obtain ⟨i, hi, rfl⟩ := Option.map_eq_some_iff.1 hi'
  exact Or.inl ⟨i, hi, rfl⟩

end Cache

/-! ## A round -/

theorem Instance.lastEvaluation_apply (i : Instance) (r : Rule) {v : Verdict}
    (p : TransitionPolicy) (hv : v.status ≠ .pending) :
    (i.apply r v p).1.lastEvaluation = v.time := by
  obtain ⟨t, ht⟩ := Option.ne_none_iff_exists'.1 (mt (Rule.target?_eq_none_iff r v.status).1 hv)
  simp only [apply, ht]
  split
  · rfl
  · rfl

namespace Sweep

variable {r : Rule} {extra : Labels} {p : TransitionPolicy} {history : Nat}

/-- One verdict leaves an entry alone or dates it. -/
theorem find?_take {s : Sweep} {v : Verdict} {id : String} {i : Instance}
    (h : (take r extra p history s v).instances.find? id = some i) :
    s.instances.find? id = some i ∨ i.lastEvaluation = v.time := by
  unfold take at h
  dsimp only at h
  split at h
  · exact Or.inl h
  split at h
  · exact Or.inl h
  rename_i hpending
  split at h
  · rename_i subject _
    -- whatever comes of the verdict, only its own entry is written
    have hwritten : ((s.instances.insert (r.expand extra v.labels).id
        (subject.apply r v p).1).find? id) = some i := by
      unfold settle at h
      dsimp only at h
      split at h
      · exact h
      · exact h
      · exact h
    rw [Table.find?_insert] at hwritten
    split at hwritten
    · obtain rfl := Option.some.inj hwritten
      exact Or.inr (Instance.lastEvaluation_apply subject r p hpending)
    · exact Or.inl hwritten
  · exact Or.inl h

theorem find?_run {rs : RuleInstances} {vs : List Verdict} {id : String} {i : Instance}
    (h : (run r extra p history rs vs).instances.find? id = some i) :
    rs.find? id = some i ∨ ∃ v ∈ vs, i.lastEvaluation = v.time := by
  induction vs using List.reverseRecOn with
  | nil => exact Or.inl h
  | append_singleton vs v ih =>
      rw [run_snoc] at h
      rcases find?_take h with h | h
      · rcases ih h with h | ⟨u, hu, h⟩
        · exact Or.inl h
        · exact Or.inr ⟨u, List.mem_append_left _ hu, h⟩
      · exact Or.inr ⟨v, List.mem_append_right _ List.mem_cons_self, h⟩

end Sweep

/-- The rule of a round with the times of its verdicts. -/
def Verdict.dates (vs : List Verdict) (r : Rule) : RuleKey → Moment → Prop :=
  fun k t => k = r.key ∧ ∃ v ∈ vs, t = v.time

namespace Cache

theorem find?_splitStale? {now : Moment} {r : Rule} {multiplier : Nat} {seen : List String}
    {rs : RuleInstances} {id : String} {i : Instance}
    (h : ((splitStale? now r multiplier seen rs).elim rs Prod.snd).find? id = some i) :
    rs.find? id = some i := by
  cases hsplit : splitStale? now r multiplier seen rs with
  | none =>
      rw [hsplit] at h
      exact h
  | some parts =>
      obtain ⟨stale, kept⟩ := parts
      rw [hsplit] at h
      have hkept := find?_of_splitStale? hsplit id
      exact (Option.filter_eq_some_iff.1 (hkept.symm.trans h)).1

/-- A round dates the instances of its rule by its verdicts and no others. -/
theorem follows_round (c : Cache) (settings : StateSettings) (now : Moment) (r : Rule)
    (vs : List Verdict) (extra : Labels) :
    Follows (c.round settings now r vs extra).2 c (Verdict.dates vs r) := by
  cases hp : settings.policy? with
  | none =>
      have hround : c.round settings now r vs extra = (none, c) := by
        unfold round
        rw [hp]
      rw [hround]
      exact .refl c _
  | some p =>
      have hswept : ∀ {id i}, (Sweep.run r extra p (settings.historyFor r) (c.ofRule r.key)
          vs).instances.find? id = some i →
          (∃ old, c.get? r.key id = some old ∧ i.lastEvaluation = old.lastEvaluation) ∨
            Verdict.dates vs r r.key i.lastEvaluation := by
        intro id i hi
        rcases Sweep.find?_run hi with hold | ⟨v, hv, htime⟩
        · exact Or.inl ⟨i, hold, rfl⟩
        · exact Or.inr ⟨rfl, v, hv, htime⟩
      cases hs : (Sweep.run r extra p (settings.historyFor r) (c.ofRule r.key) vs).failed with
      | true =>
          rw [round_of_failed hp rfl hs]
          exact follows_setRule fun id i hi => hswept hi
      | false =>
          rw [round_of_swept hp rfl hs]
          exact follows_setRule fun id i hi => hswept (find?_splitStale? hi)

end Cache

end Vigil
