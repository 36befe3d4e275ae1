import Mathlib.Data.List.Induction
import Vigil.Proofs.Instance.Run
import Vigil.Proofs.Labels.Encoding
import Vigil.Round

/-!
# Sweeps

A round takes the verdicts of an evaluation one after the other and works on all
instances of its rule at once. This file says what one verdict does to the sweep
(`Sweep.take_of_pending`, `Sweep.take_of_workable`, `Sweep.failed_take_iff`) and
what follows for the whole list: when the sweep fails, which identities it has
seen, and which entries it leaves alone.
-/

namespace Vigil

/-- The verdict applied under the rule and the policy of a round. -/
def Verdict.under (v : Verdict) (r : Rule) (p : TransitionPolicy) : Application := ⟨r, v, p⟩

/-- The identity of the instance that a verdict is about. -/
def Rule.idOf (r : Rule) (extra : Labels) (v : Verdict) : String := (r.expand extra v.labels).id

namespace Sweep

variable {r : Rule} {extra : Labels} {p : TransitionPolicy} {history : Nat}

/-- A verdict that stops no sweep over the instances `rs`: it stays in the calendar,
and there is room for the window of its instance if that is new. -/
def Workable (r : Rule) (extra : Labels) (p : TransitionPolicy) (history : Nat)
    (rs : RuleInstances) (v : Verdict) : Prop :=
  v.status ≠ .pending → (v.under r p).InCalendar ∧
    ((rs.find? (r.idOf extra v)).isSome = true ∨ history ≤ Window.maxInitialCapacity)

/-- The sweep over the instances `rs` after the verdicts `vs`. -/
def run (r : Rule) (extra : Labels) (p : TransitionPolicy) (history : Nat) (rs : RuleInstances)
    (vs : List Verdict) : Sweep :=
  vs.foldl (take r extra p history) { instances := rs }

theorem run_snoc (rs : RuleInstances) (vs : List Verdict) (v : Verdict) :
    run r extra p history rs (vs ++ [v]) =
      take r extra p history (run r extra p history rs vs) v := by
  unfold run
  rw [List.foldl_append]
  rfl

/-! ## One verdict -/

theorem take_of_failed {s : Sweep} (hs : s.failed = true) (v : Verdict) :
    take r extra p history s v = s := by
  simp [take, hs]

theorem foldl_take_of_failed {s : Sweep} (hs : s.failed = true) (vs : List Verdict) :
    vs.foldl (take r extra p history) s = s := by
  induction vs with
  | nil => rfl
  | cons v vs ih =>
      rw [List.foldl_cons, take_of_failed hs]
      exact ih

/-- A sweep that ends well has gone well. -/
theorem failed_of_foldl_take {s : Sweep} (vs : List Verdict)
    (h : (vs.foldl (take r extra p history) s).failed = false) : s.failed = false := by
  by_contra hs
  rw [Bool.not_eq_false] at hs
  rw [foldl_take_of_failed hs, hs] at h
  cases h

theorem take_of_pending {s : Sweep} (hs : s.failed = false) {v : Verdict}
    (hv : v.status = .pending) :
    take r extra p history s v = { s with
      seen := s.seen ++ [r.idOf extra v]
      processed := s.processed ++ (s.instances.find? (r.idOf extra v)).toList } := by
  simp [take, hs, hv, Rule.idOf]

/-- The instance that a verdict finds, or else makes. -/
theorem exists_subject {rs : RuleInstances} {v : Verdict}
    (h : (rs.find? (r.idOf extra v)).isSome = true ∨ history ≤ Window.maxInitialCapacity) :
    (rs.find? (r.idOf extra v)).or (Instance.new? r (r.expand extra v.labels) history) =
      some ((rs.find? (r.idOf extra v)).getD (.new r (r.expand extra v.labels) history)) := by
  cases hk : rs.find? (r.idOf extra v) with
  | some i => rfl
  | none =>
      rw [hk] at h
      have hroom : history ≤ Window.maxInitialCapacity := h.resolve_left (by simp)
      simp [Instance.new?, hroom]

theorem take_of_workable {s : Sweep} (hs : s.failed = false) {v : Verdict}
    (hv : v.status ≠ .pending) (hw : Workable r extra p history s.instances v) :
    let after := ((s.instances.find? (r.idOf extra v)).getD
      (.new r (r.expand extra v.labels) history)).next (v.under r p)
    (take r extra p history s v).failed = false ∧
    (take r extra p history s v).instances = s.instances.insert (r.idOf extra v) after ∧
    (take r extra p history s v).seen = s.seen ++ [r.idOf extra v] ∧
    (take r extra p history s v).processed = s.processed ++ [after] := by
  obtain ⟨hc, hroom⟩ := hw hv
  intro after
  obtain ⟨t, ht⟩ := ((s.instances.find? (r.idOf extra v)).getD
    (.new r (r.expand extra v.labels) history)).apply_eq_moved (a := v.under r p)
      (Application.counts_iff.2 hv) hc
  have htake : take r extra p history s v =
      settle { s with seen := s.seen ++ [r.idOf extra v] } r p v (r.idOf extra v)
        ((s.instances.find? (r.idOf extra v)).getD (.new r (r.expand extra v.labels) history)) := by
    have hsubject := exists_subject hroom
    unfold Rule.idOf at hsubject
    simp only [take, hs, hv, hsubject, Rule.idOf]
    rfl
  rw [htake]
  simp only [settle, Verdict.under] at ht ⊢
  rw [ht]
  exact ⟨hs, rfl, rfl, rfl⟩

/-- A verdict fails the sweep exactly if it is not workable. -/
theorem failed_take_iff {s : Sweep} (hs : s.failed = false) (v : Verdict) :
    (take r extra p history s v).failed = true ↔ ¬ Workable r extra p history s.instances v := by
  by_cases hv : v.status = .pending
  · rw [take_of_pending hs hv]
    simp [hs, Workable, hv]
  by_cases hw : Workable r extra p history s.instances v
  · rw [(take_of_workable hs hv hw).1]
    simp [hw]
  refine ⟨fun _ => hw, fun _ => ?_⟩
  -- either there is no room for a new instance, or what there is leaves the calendar
  cases hsubject : (s.instances.find? (r.expand extra v.labels).id).or
      (Instance.new? r (r.expand extra v.labels) history) with
  | none => simp [take, hs, hv, hsubject]
  | some i =>
      have hroom : (s.instances.find? (r.idOf extra v)).isSome = true ∨
          history ≤ Window.maxInitialCapacity := by
        by_contra hno
        rw [not_or] at hno
        have hk : s.instances.find? (r.expand extra v.labels).id = none := by
          simpa [Rule.idOf] using hno.1
        simp [hk, Instance.new?, hno.2] at hsubject
      have hc : ¬ (v.under r p).InCalendar := fun hc => hw fun _ => ⟨hc, hroom⟩
      have hout := (i.apply_outOfRange_iff (v.under r p)).2 hc
      unfold Verdict.under at hout
      simp [take, hs, hv, hsubject, settle, hout]

/-! ## The whole list -/

/-- A sweep that has not failed took its last verdict as a pending one or as a
workable one. -/
theorem run_snoc_cases {rs : RuleInstances} {vs : List Verdict} {v : Verdict}
    (h : (run r extra p history rs (vs ++ [v])).failed = false) :
    let s := run r extra p history rs vs
    let s' := run r extra p history rs (vs ++ [v])
    s.failed = false ∧ Workable r extra p history s.instances v ∧
      s'.seen = s.seen ++ [r.idOf extra v] ∧
      ((v.status = .pending ∧ s'.instances = s.instances ∧
          s'.processed = s.processed ++ (s.instances.find? (r.idOf extra v)).toList) ∨
        (v.status ≠ .pending ∧ ∃ after, after = ((s.instances.find? (r.idOf extra v)).getD
              (.new r (r.expand extra v.labels) history)).next (v.under r p) ∧
          s'.instances = s.instances.insert (r.idOf extra v) after ∧
          s'.processed = s.processed ++ [after])) := by
  intro s s'
  have hs' : s' = take r extra p history s v := run_snoc rs vs v
  have hs : s.failed = false := by
    by_contra hfailed
    rw [Bool.not_eq_false] at hfailed
    have htake : s' = s := hs'.trans (take_of_failed hfailed v)
    exact Bool.noConfusion (h.symm.trans (htake ▸ hfailed))
  have hw : Workable r extra p history s.instances v := by
    by_contra hw
    have hfailed := (failed_take_iff hs v).2 hw
    rw [← hs'] at hfailed
    exact Bool.noConfusion (h.symm.trans hfailed)
  by_cases hv : v.status = .pending
  · have htake := hs'.trans (take_of_pending hs hv)
    exact ⟨hs, hw, by rw [htake], Or.inl ⟨hv, by rw [htake], by rw [htake]⟩⟩
  · obtain ⟨-, hinstances, hseen, hprocessed⟩ := take_of_workable hs hv hw
    rw [← hs'] at hinstances hseen hprocessed
    exact ⟨hs, hw, hseen, Or.inr ⟨hv, _, rfl, hinstances, hprocessed⟩⟩

theorem seen_run {rs : RuleInstances} {vs : List Verdict}
    (h : (run r extra p history rs vs).failed = false) :
    (run r extra p history rs vs).seen = vs.map (r.idOf extra) := by
  induction vs using List.reverseRecOn with
  | nil => rfl
  | append_singleton vs v ih =>
      obtain ⟨hs, -, hseen, -⟩ := run_snoc_cases h
      rw [hseen, ih hs, List.map_append]
      rfl

/-- An identity that no verdict names keeps its entry. -/
theorem find?_run_of_unseen {rs : RuleInstances} {vs : List Verdict} {id : String}
    (h : (run r extra p history rs vs).failed = false)
    (hid : ∀ v ∈ vs, r.idOf extra v ≠ id) :
    (run r extra p history rs vs).instances.find? id = rs.find? id := by
  induction vs using List.reverseRecOn with
  | nil => rfl
  | append_singleton vs v ih =>
      obtain ⟨hs, -, -, hcases⟩ := run_snoc_cases h
      have hold := ih hs fun u hu => hid u (List.mem_append_left _ hu)
      rcases hcases with ⟨-, hinstances, -⟩ | ⟨-, after, -, hinstances, -⟩
      · rw [hinstances, hold]
      · have hne : id ≠ r.idOf extra v := (hid v (by simp)).symm
        rw [hinstances, Table.find?_insert, if_neg (by simpa using hne), hold]

/-- Room for a new window is asked for only where it was asked for at first. -/
theorem room_run_iff {rs : RuleInstances} {vs : List Verdict} (id : String)
    (h : (run r extra p history rs vs).failed = false) :
    ((run r extra p history rs vs).instances.find? id).isSome = true ∨
        history ≤ Window.maxInitialCapacity ↔
      (rs.find? id).isSome = true ∨ history ≤ Window.maxInitialCapacity := by
  induction vs using List.reverseRecOn with
  | nil => rfl
  | append_singleton vs v ih =>
      obtain ⟨hs, hw, -, hcases⟩ := run_snoc_cases h
      have hold := ih hs
      rcases hcases with ⟨-, hinstances, -⟩ | ⟨hv, after, -, hinstances, -⟩
      · rw [hinstances, hold]
      · rw [hinstances, Table.find?_insert]
        -- the verdict itself had room, whether its instance is new or not
        by_cases hid : id = r.idOf extra v
        · subst hid
          rw [if_pos (by simp), ← hold]
          simp only [Option.isSome_some, true_or, true_iff]
          exact (hw hv).2
        · rw [if_neg (by simpa using hid), hold]

theorem workable_run_iff {rs : RuleInstances} {vs : List Verdict} (v : Verdict)
    (h : (run r extra p history rs vs).failed = false) :
    Workable r extra p history (run r extra p history rs vs).instances v ↔
      Workable r extra p history rs v := by
  unfold Workable
  rw [room_run_iff _ h]

/-- A sweep fails exactly if one of its verdicts does on its own. -/
theorem failed_run_iff {rs : RuleInstances} {vs : List Verdict} :
    (run r extra p history rs vs).failed = false ↔
      ∀ v ∈ vs, Workable r extra p history rs v := by
  induction vs using List.reverseRecOn with
  | nil => simp [run]
  | append_singleton vs v ih =>
      constructor
      · intro h
        obtain ⟨hs, hw, -, -⟩ := run_snoc_cases h
        intro u hu
        rw [List.mem_append, List.mem_singleton] at hu
        rcases hu with hu | rfl
        · exact ih.1 hs u hu
        · exact (workable_run_iff u hs).1 hw
      · intro h
        have hs := ih.2 fun u hu => h u (List.mem_append_left _ hu)
        have hw := (workable_run_iff v hs).2 (h v (by simp))
        rw [run_snoc, ← Bool.not_eq_true, failed_take_iff hs]
        exact not_not_intro hw

end Sweep

end Vigil
