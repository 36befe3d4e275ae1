import Vigil.Proofs.Engine.Waiting

/-!
# States under a state manager

The state manager works on the data that routines share on its own account: it warms up
the cache from stored rows, or a rule is reset. Nothing of what routines are at hangs on
that data. An action other than a routine's own step leaves the routine where it is, and the
cache as well (`System.stays_step`), and the evaluations on their way to a routine are those
of its rule (`System.addressed_step`). So all of this holds wherever the steps of an engine
lead with the state manager at work between them (`System.Reached.orderly`).
-/

namespace Vigil

/-- `w'` is `w` at the same point, with its stop signal as it was or told of a deletion. -/
structure Worker.Stays (w w' : Worker) : Prop where
  key : w'.key = w.key
  own : w' = { w with handle := w'.handle }
  stop : w'.handle.stop = w.handle.stop ∨ w'.handle.stop = some .ruleDeleted

theorem Worker.Stays.phase {w w' : Worker} (h : w.Stays w') : w'.phase = w.phase := by
  rw [h.own]

theorem Worker.Stays.refl (w : Worker) : w.Stays w := ⟨rfl, rfl, Or.inl rfl⟩

theorem Worker.stays_dismissed (w : Worker) : w.Stays w.dismissed := by
  refine ⟨w.key_dismissed, rfl, ?_⟩
  unfold dismissed Handle.fire
  split
  · exact Or.inl rfl
  · exact Or.inr rfl

namespace System

variable {s t : System} {n : Nat} {w w' : Worker} {k : RuleKey}

/-! ## Actions between the steps of routines -/

/-- From `s` to `t` no routine takes a step, and the cache stays as it is. -/
structure Stays (s t : System) : Prop where
  cache : t.shared.cache = s.shared.cache
  kept : ∀ {n : Nat} {w : Worker}, s.registry.entries[n]? = some w →
    ∃ w', t.registry.entries[n]? = some w' ∧ w.Stays w'
  fresh : ∀ {n : Nat} {w' : Worker}, s.registry.entries[n]? = none →
    t.registry.entries[n]? = some w' → ∃ k, w' = .new k

theorem Stays.entry (h : s.Stays t) (hw' : t.registry.entries[n]? = some w') :
    (∃ w, s.registry.entries[n]? = some w ∧ w.Stays w') ∨ ∃ k, w' = .new k := by
  cases hw : s.registry.entries[n]? with
  | none => exact Or.inr (h.fresh hw hw')
  | some w =>
      obtain ⟨u, hu, hstays⟩ := h.kept hw
      obtain rfl := Option.some.inj (hw'.symm.trans hu)
      exact Or.inl ⟨w, rfl, hstays⟩

theorem stays_of_registry_eq (hc : t.shared.cache = s.shared.cache)
    (hg : t.registry = s.registry) : s.Stays t := by
  refine ⟨hc, fun {n w} hw => ⟨w, hg ▸ hw, .refl w⟩, fun {n w'} hnone hw' => ?_⟩
  rw [hg, hnone] at hw'
  cases hw'

theorem stays_of_modify (hc : t.shared.cache = s.shared.cache) {n : Nat} {f : Worker → Worker}
    (hg : t.registry = s.registry.modify n f)
    (hf : ∀ w, s.registry.entries[n]? = some w → w.Stays (f w)) : s.Stays t := by
  have hentries : ∀ m : Nat, t.registry.entries[m]? =
      if n = m then s.registry.entries[m]?.map f else s.registry.entries[m]? := fun m => by
    rw [hg, Registry.getElem?_modify]
  refine ⟨hc, fun {m w} hw => ?_, fun {m w'} hnone hw' => ?_⟩
  · rw [hentries m, hw]
    by_cases hnm : n = m
    · exact ⟨f w, if_pos hnm, hf w (hnm ▸ hw)⟩
    · exact ⟨w, if_neg hnm, .refl w⟩
  · rw [hentries m, hnone, Option.map_none, ite_self] at hw'
    cases hw'

theorem stays_of_dismissAll (ks new : List RuleKey) (hc : t.shared.cache = s.shared.cache)
    (he : t.registry.entries = dismissAll ks s.registry.entries ++ new.map Worker.new) :
    s.Stays t := by
  have hlength : (dismissAll ks s.registry.entries).length = s.registry.entries.length :=
    List.length_map _
  refine ⟨hc, fun {n w} hw => ?_, fun {n w'} hnone hw' => ?_⟩
  · have hn := (List.getElem?_eq_some_iff.1 hw).1
    rw [he, List.getElem?_append_left (hlength ▸ hn), dismissAll, List.getElem?_map, hw]
    refine ⟨_, rfl, ?_⟩
    dsimp only
    split
    · exact w.stays_dismissed
    · exact .refl w
  · have hn := List.getElem?_eq_none_iff.1 hnone
    rw [he, List.getElem?_append_right (hlength ▸ hn), List.getElem?_map] at hw'
    obtain ⟨k, -, rfl⟩ := Option.map_eq_some_iff.1 hw'
    exact ⟨k, rfl⟩

/-- **Only a routine's own step moves it,** or changes the cache. -/
theorem stays_step (hs : s.Tracks) {a : Action} (ha : a.IsListed) (h : s.step? a = some t)
    (hworker : ∀ n input, a ≠ .worker n input) : s.Stays t := by
  cases a with
  | setClock clock =>
      cases h
      exact stays_of_registry_eq rfl rfl
  | elapse millis =>
      cases h
      exact stays_of_registry_eq rfl rfl
  | tick time listing =>
      cases h
      obtain ⟨metrics, hshared⟩ := s.shared_tick time listing
      have hturns := (hs.tick time listing rfl (hs.keyed_getD ha)).2
      exact stays_of_dismissAll _ _ (by rw [hshared]) hturns.entries
  | delete ks =>
      cases h
      refine stays_of_dismissAll ks [] (by rw [delete_eq]) ?_
      rw [entries_delete hs.sound, List.map_nil, List.append_nil]
  | update k version =>
      cases h
      unfold update
      split
      · refine stays_of_modify rfl rfl fun w _ => ?_
        exact ⟨w.handle.key_post s.root version, rfl, Or.inl (w.handle.stop_post s.root version)⟩
      · exact stays_of_registry_eq rfl rfl
  | stopAll =>
      cases h
      exact stays_of_registry_eq rfl rfl
  | release number =>
      obtain ⟨d, w, -, hw, rfl | ⟨-, -, metrics, rfl⟩⟩ := release_cases h
      · exact stays_of_registry_eq rfl rfl
      · refine stays_of_modify rfl rfl fun u hu => ?_
        obtain rfl := Option.some.inj (hw.symm.trans hu)
        exact ⟨w.handle.key_offer s.root d.evaluation, rfl,
          Or.inl (w.handle.stop_offer s.root d.evaluation)⟩
  | worker n input => exact absurd rfl (hworker n input)

/-- A step of routine `n`. -/
theorem stepWorker_cases {input : Input} (h : s.stepWorker? n input = some t) :
    ∃ w w' d, s.registry.entries[n]? = some w ∧ w.step? s.root input s.shared = some (w', d) ∧
      t = { s with shared := d, registry := s.registry.modify n fun _ => w' } ∧
      t.registry.entries[n]? = some w' ∧
      ∀ m, n ≠ m → t.registry.entries[m]? = s.registry.entries[m]? := by
  obtain ⟨w, hw, h⟩ := Option.bind_eq_some_iff.1 h
  obtain ⟨⟨w', d⟩, hstep, h⟩ := Option.bind_eq_some_iff.1 h
  cases h
  refine ⟨w, w', d, hw, hstep, rfl, ?_, fun m hm => ?_⟩
  · rw [Registry.getElem?_modify, if_pos rfl, hw]
    rfl
  · rw [Registry.getElem?_modify, if_neg hm]

theorem key?_worker {input : Input} (h : s.stepWorker? n input = some t) (m : Nat) :
    t.key? m = s.key? m := by
  obtain ⟨w, w', d, hw, hstep, -, hw', hothers⟩ := stepWorker_cases h
  by_cases hm : n = m
  · rw [← hm, key?_eq hw, key?_eq hw', (Worker.frame_of_step hstep).1.1]
  · rw [key?, hothers m hm]
    rfl

/-- Only the stop for all fires the signal for all. -/
theorem root_step (hs : s.Tracks) {a : Action} (ha : a.IsListed) (hstop : a ≠ .stopAll)
    (h : s.step? a = some t) : t.root = s.root := by
  cases a with
  | stopAll => exact absurd rfl hstop
  | tick time listing =>
      cases h
      obtain ⟨ds, -, htick⟩ := tick_eq rfl (hs.keyed_getD ha) time rfl
      rw [htick, delete_eq]
  | delete ks =>
      cases h
      rw [delete_eq]
  | update k version =>
      cases h
      unfold update
      split
      · rfl
      · rfl
  | release number =>
      obtain ⟨d, w, -, -, rfl | ⟨-, -, metrics, rfl⟩⟩ := release_cases h
      · rfl
      · rfl
  | worker n input =>
      obtain ⟨w, w', d, -, -, rfl, -⟩ := stepWorker_cases h
      rfl
  | _ =>
      cases h
      rfl

/-! ## Evaluations and their routines -/

/-- What is ahead of a routine is of its rule. -/
def Addressed (s : System) : Prop := ∀ n, ∀ e ∈ s.ahead n, s.key? n = some e.rule.key

theorem mem_ahead_iff {e : Evaluation} : e ∈ s.ahead n ↔
    s.upcoming? n = some e ∨ s.pending? n = some e ∨
      ∃ d ∈ s.dispatches, d.worker = n ∧ d.evaluation = e := by
  simp [ahead, waiting, and_assoc]

theorem Rests.mem_ahead (h : s.Rests t) {e : Evaluation} (he : e ∈ t.ahead n) :
    e ∈ s.ahead n := by
  unfold System.ahead at he ⊢
  rw [h.upcoming?_eq] at he
  have hwaiting := waiting_sublist (h.pending?_eq n) h.dispatches
  exact ((List.Sublist.refl _).append hwaiting).subset he

theorem Addressed.of_mem (hs : s.Addressed) (hkey : ∀ n, t.key? n = s.key? n)
    (hmem : ∀ n, ∀ e ∈ t.ahead n, e ∈ s.ahead n) : t.Addressed :=
  fun n e he => (hkey n).trans (hs n e (hmem n e he))

theorem Addressed.rests (hs : s.Addressed) (h : s.Rests t) : t.Addressed :=
  hs.of_mem h.key?_eq fun _ _ he => h.mem_ahead he

theorem addressed_release (hs : s.Addressed) {number : Nat} (h : s.release? number = some t) :
    t.Addressed := by
  have hsent : (s.dispatches.filter (·.number != number)).Sublist s.dispatches :=
    List.filter_sublist
  obtain ⟨d, w, hd, hw, rfl | ⟨-, -, metrics, rfl⟩⟩ := release_cases h
  · exact hs.rests (.of_entries_eq rfl id hsent rfl)
  rcases w.offer_cases s.root d.evaluation with hrests | ⟨-, hfull⟩
  · refine hs.rests (.of_modify d.worker rfl (fun u hu => ?_) rfl hsent rfl)
    obtain rfl := Option.some.inj (hw.symm.trans hu)
    exact hrests
  -- the evaluation is now in the mailbox of the routine that it was sent to
  refine hs.of_mem (fun n => ?_) fun n e he => ?_
  · unfold key?
    rw [Registry.getElem?_modify]
    split
    · rename_i hn
      rw [← hn, hw]
      exact congrArg some (w.handle.key_offer s.root d.evaluation)
    · rfl
  · rw [mem_ahead_iff] at he ⊢
    unfold upcoming? pending? at he ⊢
    rw [Registry.getElem?_modify] at he
    rcases he with hup | hpending | ⟨d', hd', hto⟩
    · left
      split at hup
      · rename_i hn
        rw [← hn, hw] at hup ⊢
        exact hup
      · exact hup
    · right
      split at hpending
      · rename_i hn
        rw [← hn, hw] at hpending
        refine Or.inr ⟨d, List.mem_of_find?_eq_some hd, hn, ?_⟩
        exact Option.some.inj (hfull.symm.trans hpending)
      · exact Or.inl hpending
    · exact Or.inr (Or.inr ⟨d', hsent.subset hd', hto⟩)

theorem addressed_worker (hs : s.Addressed) {input : Input}
    (h : s.stepWorker? n input = some t) : t.Addressed := by
  obtain ⟨w, w', d, hw, hstep, ht, hw', hothers⟩ := stepWorker_cases h
  have hsent : t.dispatches = s.dispatches := by rw [ht]
  refine hs.of_mem (key?_worker h) fun m e he => ?_
  by_cases hm : n = m
  · subst hm
    rw [ahead_eq hw', hsent] at he
    rw [ahead_eq hw]
    have hsub := Worker.upcoming_pending_sublist hstep
    exact (hsub.append (List.Sublist.refl _)).subset he
  · unfold ahead waiting upcoming? pending? at he ⊢
    rw [hothers m hm, hsent] at he
    exact he

theorem addressed_step (hs : s.Addressed) (htracks : s.Tracks) {a : Action} (ha : a.IsListed)
    (h : s.step? a = some t) : t.Addressed := by
  cases a with
  | tick time listing =>
      cases h
      obtain ⟨ds, hds⟩ := deals_of_tick htracks.sound time listing rfl (htracks.keyed_getD ha)
      intro n e he
      rw [hds.ahead_eq, List.mem_append] at he
      rcases he with hold | hnew
      · exact hds.key n _ (hs n e hold)
      · exact (hds.scheduledAt_of_mem hnew).2
  | release number => exact addressed_release hs h
  | worker n input => exact addressed_worker hs h
  | _ => exact hs.rests (rests_step htracks.sound h nofun nofun nofun)

/-! ## Reachable states -/

/-- What holds of an engine whatever has been done to the data that routines share. -/
structure Orderly (s : System) : Prop where
  tracks : s.Tracks
  atDesks : s.AtDesks
  addressed : s.Addressed
  /-- A routine's own signal tells of a deletion. -/
  stop : ∀ {n : Nat} {w : Worker}, s.registry.entries[n]? = some w →
    w.handle.stop ≠ some .shutdown

theorem orderly_new (scheduler : SchedulerSettings) (state : StateSettings) (clock : Moment) :
    Orderly (new scheduler state clock) :=
  ⟨tracks_new scheduler state clock, List.forall_mem_nil _, fun _ _ he => absurd he nofun, nofun⟩

theorem Orderly.step (hs : s.Orderly) {a : Action} (ha : a.IsListed) (h : s.step? a = some t) :
    t.Orderly := by
  refine ⟨tracks_step hs.tracks ha h, atDesks_step hs.atDesks h,
    addressed_step hs.addressed hs.tracks ha h, fun {n w'} hw' => ?_⟩
  have hstays : s.Stays t → w'.handle.stop ≠ some .shutdown := by
    intro hst
    rcases hst.entry hw' with ⟨w, hw, hstay⟩ | ⟨k, rfl⟩
    · rcases hstay.stop with hsame | htold
      · exact hsame ▸ hs.stop hw
      · rw [htold]
        exact nofun
    · exact nofun
  cases a with
  | worker m input =>
      obtain ⟨w, u, d, hw, hstep, -, hu, hothers⟩ := stepWorker_cases h
      by_cases hm : m = n
      · subst hm
        obtain rfl := Option.some.inj (hw'.symm.trans hu)
        rw [(Worker.frame_of_step hstep).1.2]
        exact hs.stop hw
      · exact hs.stop (hothers n hm ▸ hw')
  | _ => exact hstays (stays_step hs.tracks ha h nofun)

/-- The states of an engine. Between its steps the state manager, as it warms up or is asked
to reset a rule, may leave the data that routines share in any state. -/
inductive Reached : System → Prop where
  | new (scheduler : SchedulerSettings) (state : StateSettings) (clock : Moment) :
      Reached (.new scheduler state clock)
  | step {s t : System} {a : Action} (hs : Reached s) (ha : a.IsListed)
      (h : s.step? a = some t) : Reached t
  | manage {s : System} (hs : Reached s) (d : Shared) : Reached { s with shared := d }

theorem Reached.orderly (hs : s.Reached) : s.Orderly := by
  induction hs with
  | new scheduler state clock => exact orderly_new scheduler state clock
  | step _ ha h ih => exact ih.step ha h
  | manage _ d ih =>
      exact ⟨⟨ih.tracks.keyed, ih.tracks.sound, ih.tracks.running⟩, ih.atDesks, ih.addressed,
        ih.stop⟩

theorem Reached.run (hs : s.Reached) {as : List Action} (ha : ∀ a ∈ as, a.IsListed)
    (h : s.run? as = some t) : t.Reached := by
  induction as using List.reverseRecOn generalizing t with
  | nil =>
      cases h
      exact hs
  | append_singleton as a ih =>
      rw [run?_snoc] at h
      obtain ⟨u, hu, hstep⟩ := Option.bind_eq_some_iff.1 h
      have hbefore := ih (fun b hb => ha b (List.mem_append_left _ hb)) hu
      exact hbefore.step (ha a (List.mem_append_right _ List.mem_cons_self)) hstep

/-! ### Routines and their rules -/

theorem find?_ne_of_not_running (hk : s.isRunning k = false) (n : Nat) :
    s.registry.find? k ≠ some n := by
  intro hlive
  rw [isRunning, hlive] at hk
  cases hk

namespace Orderly

/-- A routine that is not the live one of its rule was told that the rule is deleted. -/
theorem stop_eq (hs : s.Orderly) (hw : s.registry.entries[n]? = some w)
    (hdead : s.registry.find? w.key ≠ some n) : w.handle.stop = some .ruleDeleted := by
  cases hstop : w.handle.stop with
  | none => exact absurd ((hs.tracks.sound.unstopped hw).1 hstop) hdead
  | some r =>
      cases r with
      | shutdown => exact absurd hstop (hs.stop hw)
      | ruleDeleted => rfl

/-- Verdicts that are in are about the routine's own rule. -/
theorem key_of_concluded (hs : s.Orderly) (hw : s.registry.entries[n]? = some w) {job : Job}
    {vs : List Verdict} (hphase : w.phase = .concluded job vs) :
    job.evaluation.rule.key = w.key := by
  have hupcoming : s.upcoming? n = some job.evaluation := by
    rw [upcoming?_eq hw, hphase]
    rfl
  have hkey := hs.addressed n _ (mem_ahead_iff.2 (Or.inl hupcoming))
  rw [key?_eq hw] at hkey
  exact (Option.some.inj hkey).symm

end Orderly

end System

end Vigil
