import Vigil.Proofs.Engine.Clearing
import Vigil.Proofs.Engine.Reach

/-!
# What a deletion clears

A deletion removes no instance itself. It tells the live routine of the rule, which
erases the instances on its way out, so what becomes of them hangs on the routines that
are there. These always come to rest (`System.exists_atRest`), and the rule is then clear
of its instances if one of them that was yet to leave has exited
(`System.instances_after_delete`). A stop for all that comes first, a routine that crashes
or a rule that never had a routine leaves them in place.
-/

namespace Vigil

namespace System

variable {s t u : System} {n : Nat} {w w' : Worker} {k : RuleKey} {ks : List RuleKey}
  {as : List Action}

/-! ## Routines that have yet to leave -/

/-- Routine `n` is of rule `k` and has neither left nor begun to. -/
def Remains (s : System) (k : RuleKey) (n : Nat) : Prop :=
  ∃ w, s.registry.entries[n]? = some w ∧ w.key = k ∧ w.phase.isLeaving = false

theorem remains_iff (hw : s.registry.entries[n]? = some w) :
    s.Remains k n ↔ w.key = k ∧ w.phase.isLeaving = false := by
  simp [Remains, hw]

theorem remains_congr (h : t.registry.entries[n]? = s.registry.entries[n]?) :
    t.Remains k n ↔ s.Remains k n := by
  rw [Remains, Remains, h]

theorem Stays.remains (h : s.Stays t) (hn : s.Remains k n) : t.Remains k n := by
  obtain ⟨w, hw, hkey, hleaving⟩ := hn
  obtain ⟨w', hw', hstay⟩ := h.kept hw
  exact ⟨w', hw', hstay.key.trans hkey, (congrArg Phase.isLeaving hstay.phase).trans hleaving⟩

/-- A rule that is not running has no new routine. -/
theorem Stays.of_remains (h : s.Stays t) (ht : t.Tracks) (hk : t.isRunning k = false)
    (hn : t.Remains k n) : s.Remains k n := by
  obtain ⟨w', hw', hkey, hleaving⟩ := hn
  rcases h.entry hw' with ⟨w, hw, hstay⟩ | ⟨q, rfl⟩
  · exact ⟨w, hw, hstay.key.symm.trans hkey,
      (congrArg Phase.isLeaving hstay.phase).symm.trans hleaving⟩
  · obtain rfl : q = k := hkey
    exact absurd ((ht.sound.unstopped hw').1 rfl) (find?_ne_of_not_running hk n)

/-- **What a routine's step does to a rule.** The rule keeps its instances and its routines,
or it loses all its instances to a routine that begins to leave, or the step is that of its
live routine. -/
theorem worker_cases (hs : s.Reached) {input : Input} (h : s.stepWorker? n input = some t)
    (k : RuleKey) :
    (t.shared.cache.ids k = s.shared.cache.ids k ∧ ∀ m, t.Remains k m ↔ s.Remains k m) ∨
      (t.shared.cache.ids k = [] ∧ s.Remains k n ∧ ¬ t.Remains k n ∧
        ∀ m, t.Remains k m → s.Remains k m) ∨
      s.registry.find? k = some n := by
  obtain ⟨w, w', d, hw, hstep, ht, hw', hothers⟩ := stepWorker_cases h
  have hkey : w'.key = w.key := (Worker.frame_of_step hstep).1.1
  have hshared : t.shared = d := by rw [ht]
  have hremains : (w.key = k → w'.phase.isLeaving = w.phase.isLeaving) →
      ∀ m, t.Remains k m ↔ s.Remains k m := by
    intro hsame m
    by_cases hm : n = m
    · subst hm
      rw [remains_iff hw', remains_iff hw, hkey]
      exact and_congr_right fun hk => by rw [hsame hk]
    · exact remains_congr (hothers m hm)
  rw [hshared]
  by_cases hk : w.key = k
  · subst hk
    by_cases hlive : s.registry.find? w.key = some n
    · exact Or.inr (Or.inr hlive)
    have hstop := hs.orderly.stop_eq hw hlive
    by_cases hidle : w.phase = .idle
    · obtain ⟨hids, hleaving⟩ :=
        Worker.clears_wake hstop (Worker.wake?_of_idle hidle hstep)
      have hgone : ¬ t.Remains w.key n := by
        rw [remains_iff hw', hleaving]
        exact fun hn => Bool.noConfusion hn.2
      refine Or.inr (Or.inl ⟨hids, (remains_iff hw).2 ⟨rfl, by rw [hidle]; rfl⟩, hgone, ?_⟩)
      intro m hm
      by_cases hnm : n = m
      · exact absurd (hnm ▸ hm) hgone
      · exact (remains_congr (hothers m hnm)).1 hm
    · have hstopped := Handle.isStopped_of_stop hstop s.root
      have hspares := Worker.spares_step hidle (k := w.key)
        (fun _ _ _ hgoes => absurd (hstopped.symm.trans hgoes) nofun) hstep
      exact Or.inl ⟨hspares.ids, hremains fun _ => hspares.leaving⟩
  · left
    refine ⟨?_, hremains fun hk' => absurd hk' hk⟩
    by_cases hidle : w.phase = .idle
    · exact Worker.ids_wake_of_ne (Ne.symm hk) (Worker.wake?_of_idle hidle hstep)
    · refine (Worker.spares_step hidle (fun job vs hphase _ hrule => ?_) hstep).ids
      exact hk ((hs.orderly.key_of_concluded hw hphase).symm.trans hrule.symm)

/-! ## From a deletion to rest -/

/-- From `s` to `t` rule `k` loses all its instances exactly if it had none or a routine that
was to leave begins to. -/
structure Clears (k : RuleKey) (s t : System) : Prop where
  key : ∀ n, s.key? n = some k → t.key? n = some k
  remains : ∀ n, t.Remains k n → s.Remains k n
  ids : t.shared.cache.ids k = [] ↔
    s.shared.cache.ids k = [] ∨ ∃ n, s.Remains k n ∧ ¬ t.Remains k n

theorem clears_of_ids_eq (hkey : ∀ n, s.key? n = some k → t.key? n = some k)
    (hids : t.shared.cache.ids k = s.shared.cache.ids k)
    (hremains : ∀ n, t.Remains k n ↔ s.Remains k n) : Clears k s t := by
  refine ⟨hkey, fun n => (hremains n).1, ?_⟩
  rw [hids]
  constructor
  · exact Or.inl
  · rintro (hnone | ⟨n, hs, ht⟩)
    · exact hnone
    · exact absurd ((hremains n).2 hs) ht

theorem Clears.trans (h : Clears k s t) (h' : Clears k t u) : Clears k s u := by
  refine ⟨fun n => h'.key n ∘ h.key n, fun n => h.remains n ∘ h'.remains n, ?_⟩
  rw [h'.ids, h.ids]
  constructor
  · rintro ((hnone | ⟨n, hs, ht⟩) | ⟨n, ht, hu⟩)
    · exact Or.inl hnone
    · exact Or.inr ⟨n, hs, fun hu => ht (h'.remains n hu)⟩
    · exact Or.inr ⟨n, h.remains n ht, hu⟩
  · rintro (hnone | ⟨n, hs, hu⟩)
    · exact Or.inl (Or.inl hnone)
    · by_cases ht : t.Remains k n
      · exact Or.inr ⟨n, ht, hu⟩
      · exact Or.inl (Or.inr ⟨n, hs, ht⟩)

theorem Stays.key? (h : s.Stays t) (hk : s.key? n = some k) : t.key? n = some k := by
  obtain ⟨w, hw, rfl⟩ := Option.map_eq_some_iff.1 hk
  obtain ⟨w', hw', hstay⟩ := h.kept hw
  exact (key?_eq hw').trans (congrArg some hstay.key)

theorem clears_of_stays (h : s.Stays t) (ht : t.Tracks) (hk : t.isRunning k = false) :
    Clears k s t :=
  clears_of_ids_eq (fun _ => h.key?) (congrArg (Cache.ids · k) h.cache)
    fun _ => ⟨h.of_remains ht hk, h.remains⟩

/-- A step without a new listing, of a rule that is not running. -/
theorem clears_step (hs : s.Reached) (hk : s.isRunning k = false) {a : Action} (ha : a.IsSilent)
    (h : s.step? a = some t) : Clears k s t := by
  cases a with
  | worker n input =>
      have hkey : ∀ m, s.key? m = some k → t.key? m = some k := fun m hm =>
        (key?_worker h m).trans hm
      rcases worker_cases hs h k with ⟨hids, hremains⟩ | ⟨hids, hn, hgone, hremains⟩ | hlive
      · exact clears_of_ids_eq hkey hids hremains
      · exact ⟨hkey, hremains, iff_of_true hids (Or.inr ⟨n, hn, hgone⟩)⟩
      · exact absurd hlive (find?_ne_of_not_running hk n)
  | _ =>
      have hstays := stays_step hs.orderly.tracks ha.isListed h nofun
      exact clears_of_stays hstays (tracks_step hs.orderly.tracks ha.isListed h)
        (not_running_step hs.orderly.tracks ha h hk)

theorem clears_run (hs : s.Reached) (hk : s.isRunning k = false) (ha : ∀ a ∈ as, a.IsSilent)
    (h : s.run? as = some t) : Clears k s t := by
  induction as using List.reverseRecOn generalizing t with
  | nil =>
      cases h
      exact clears_of_ids_eq (fun _ => id) rfl fun _ => Iff.rfl
  | append_singleton as a ih =>
      rw [run?_snoc] at h
      obtain ⟨u, hu, hstep⟩ := Option.bind_eq_some_iff.1 h
      have hbefore : ∀ b ∈ as, b.IsSilent := fun b hb => ha b (List.mem_append_left _ hb)
      have hlast := ha a (List.mem_append_right _ List.mem_cons_self)
      have hu' := hs.run (fun b hb => (hbefore b hb).isListed) hu
      have hstill := (not_running_run hs.orderly.tracks hbefore hu hk).2
      exact (ih hbefore hu).trans (clears_step hu' hstill hlast hstep)

/-! ## Rest -/

/-- No routine of rule `k` can go on, whatever it gets. -/
def AtRest (s : System) (k : RuleKey) : Prop :=
  ∀ n, s.key? n = some k → ∀ input, s.stepWorker? n input = none

def HasExited (s : System) (n : Nat) : Prop :=
  ∃ w, s.registry.entries[n]? = some w ∧ w.phase = .exited

theorem stepWorker?_eq (hw : s.registry.entries[n]? = some w) (input : Input) :
    s.stepWorker? n input = (w.step? s.root input s.shared).map fun r =>
      { s with shared := r.2, registry := s.registry.modify n fun _ => r.1 } := by
  unfold stepWorker?
  rw [hw]
  cases hstep : w.step? s.root input s.shared with
  | none => simp [hstep]
  | some r => simp [hstep]

/-- A routine whose rule is not running can go on until its end, without an answer of an
evaluator. -/
theorem exists_step (hs : s.Reached) (hw : s.registry.entries[n]? = some w)
    (hk : s.isRunning w.key = false) (hlive : w.isLive = true) :
    ∃ (input : Input) (r : Worker × Shared), input.isAnswer = false ∧
      w.step? s.root input s.shared = some r := by
  have hstop := hs.orderly.stop_eq hw (find?_ne_of_not_running hk n)
  have hawait := (hs.orderly.atDesks.of_getElem? hw).awaiting
  obtain ⟨input, hanswer, hcan⟩ :=
    Worker.exists_step (Handle.isStopped_of_stop hstop s.root) hawait hlive s.shared
  obtain ⟨r, hr⟩ := Option.isSome_iff_exists.1 hcan
  exact ⟨input, r, hanswer, hr⟩

/-- At rest it has exited or crashed. -/
theorem AtRest.not_live (hs : s.Reached) (hk : s.isRunning k = false) (hrest : s.AtRest k)
    (hw : s.registry.entries[n]? = some w) (hkey : w.key = k) : w.isLive = false := by
  rw [← Bool.not_eq_true]
  intro hlive
  obtain ⟨input, r, -, hstep⟩ := exists_step hs hw (hkey ▸ hk) hlive
  have hstuck := hrest n ((key?_eq hw).trans (congrArg some hkey)) input
  rw [stepWorker?_eq hw, hstep] at hstuck
  cases hstuck

/-- At rest the routines that left are those that exited. -/
theorem hasExited_iff (hs : s.Reached) (hk : s.isRunning k = false) (hrest : s.AtRest k)
    (hn : s.key? n = some k) : s.HasExited n ↔ ¬ s.Remains k n := by
  obtain ⟨w, hw, hkey⟩ := Option.map_eq_some_iff.1 hn
  rw [remains_iff hw]
  have hexited : s.HasExited n ↔ w.phase = .exited := by simp [HasExited, hw]
  rw [hexited]
  rcases Worker.isLive_eq_false_iff.1 (hrest.not_live hs hk hw hkey) with hphase | hphase
  · simp [hphase, Phase.isLeaving]
  · simp [hphase, hkey, Phase.isLeaving]

/-- A routine whose rule is not running comes to its end by steps of its own. -/
theorem exists_over {s : System} {w : Worker} (hs : s.Reached)
    (hw : s.registry.entries[n]? = some w) (hk : s.isRunning w.key = false) :
    ∃ as t, (∀ a ∈ as, a.IsSilent) ∧ s.run? as = some t ∧ t.Reached ∧
      (∃ w', t.registry.entries[n]? = some w' ∧ w'.isLive = false) ∧
      ∀ m, n ≠ m → t.registry.entries[m]? = s.registry.entries[m]? := by
  by_cases hlive : w.isLive = true
  · obtain ⟨input, ⟨v, d⟩, hanswer, hstep⟩ := exists_step hs hw hk hlive
    let u : System := { s with shared := d, registry := s.registry.modify n fun _ => v }
    have hu : s.step? (.worker n input) = some u := by
      show s.stepWorker? n input = some u
      rw [stepWorker?_eq hw, hstep]
      rfl
    have hv : u.registry.entries[n]? = some v := by
      rw [Registry.getElem?_modify, if_pos rfl, hw]
      rfl
    have hkey : v.key = w.key := (Worker.frame_of_step hstep).1.1
    obtain ⟨as, t, hsilent, hrun, ht, hover, hothers⟩ :=
      exists_over (hs.step (a := .worker n input) trivial hu) hv (hkey ▸ hk)
    refine ⟨.worker n input :: as, t, List.forall_mem_cons.2 ⟨trivial, hsilent⟩, ?_, ht, hover,
      fun m hm => ?_⟩
    · rw [run?, List.foldlM_cons, hu]
      exact hrun
    · rw [hothers m hm, Registry.getElem?_modify, if_neg hm]
  · exact ⟨[], s, List.forall_mem_nil _, rfl, hs, ⟨w, hw, Bool.eq_false_iff.2 hlive⟩,
      fun _ _ => rfl⟩
termination_by (w.phase.stage, w.phase.backlog)
decreasing_by
  have hstop := hs.orderly.stop_eq hw (find?_ne_of_not_running hk n)
  exact Prod.lex_def.2 (Worker.nearer_of_step hstop hanswer hstep)

/-- One routine after the other. -/
theorem exists_over_below (hs : s.Reached) (hks : ∀ k ∈ ks, s.isRunning k = false) (bound : Nat) :
    ∃ as t, (∀ a ∈ as, a.IsSilent) ∧ s.run? as = some t ∧ t.Reached ∧
      (∀ m : Nat, s.registry.entries[m]? = none → t.registry.entries[m]? = none) ∧
      ∀ n < bound, ∀ w, t.registry.entries[n]? = some w → w.key ∈ ks → w.isLive = false := by
  induction bound with
  | zero => exact ⟨[], s, List.forall_mem_nil _, rfl, hs, fun _ => id, nofun⟩
  | succ bound ih =>
      obtain ⟨as, t, hsilent, hrun, ht, hnone, hover⟩ := ih
      by_cases hmine : ∃ w, t.registry.entries[bound]? = some w ∧ w.key ∈ ks
      · obtain ⟨w, hw, hk⟩ := hmine
        have hstill := (not_running_run hs.orderly.tracks hsilent hrun (hks _ hk)).2
        obtain ⟨as', t', hsilent', hrun', ht', ⟨w', hw', hlive⟩, hothers⟩ :=
          exists_over ht hw hstill
        refine ⟨as ++ as', t', List.forall_mem_append.2 ⟨hsilent, hsilent'⟩, ?_, ht',
          fun m hm => ?_, fun n hn v hv hkey => ?_⟩
        · rw [run?, List.foldlM_append]
          show (s.run? as).bind _ = some t'
          rw [hrun]
          exact hrun'
        · by_cases hmb : bound = m
          · subst hmb
            cases hw.symm.trans (hnone _ hm)
          · rw [hothers m hmb]
            exact hnone m hm
        · by_cases hnb : bound = n
          · subst hnb
            obtain rfl := Option.some.inj (hw'.symm.trans hv)
            exact hlive
          · rw [hothers n hnb] at hv
            exact hover n (by omega) v hv hkey
      · refine ⟨as, t, hsilent, hrun, ht, hnone, fun n hn v hv hkey => ?_⟩
        by_cases hnb : bound = n
        · exact absurd ⟨v, hnb ▸ hv, hkey⟩ hmine
        · exact hover n (by omega) v hv hkey

/-- The routines of rules that are not running can always come to rest. -/
theorem exists_atRest (hs : s.Reached) (hks : ∀ k ∈ ks, s.isRunning k = false) :
    ∃ as t, (∀ a ∈ as, a.IsSilent) ∧ s.run? as = some t ∧ ∀ k ∈ ks, t.AtRest k := by
  obtain ⟨as, t, hsilent, hrun, -, hnone, hover⟩ :=
    exists_over_below hs hks s.registry.entries.length
  refine ⟨as, t, hsilent, hrun, fun k hk n hn input => ?_⟩
  obtain ⟨w, hw, rfl⟩ := Option.map_eq_some_iff.1 hn
  have hlt : n < s.registry.entries.length := by
    rw [← Nat.not_le]
    intro hle
    cases hw.symm.trans (hnone n (List.getElem?_eq_none hle))
  rw [stepWorker?_eq hw, Worker.step_of_not_live (hover n hlt w hw hk)]
  rfl

/-! ## Rules with a routine to clear them -/

/-- Nothing stops all routines, and a rule that has instances has a routine that is yet to
leave. -/
structure Tended (s : System) : Prop where
  root : s.root = none
  remains : ∀ k, s.shared.cache.ids k ≠ [] → ∃ n, s.Remains k n

theorem tended_step (hs : s.Reached) (htended : s.Tended) {a : Action} (ha : a.IsListed)
    (hstop : a ≠ .stopAll) (h : s.step? a = some t) : t.Tended := by
  have hroot := (root_step hs.orderly.tracks ha hstop h).trans htended.root
  refine ⟨hroot, fun k hids => ?_⟩
  cases a with
  | worker n input =>
      rcases worker_cases hs h k with ⟨hsame, hremains⟩ | ⟨hnone, -⟩ | hlive
      · obtain ⟨m, hm⟩ := htended.remains k (hsame ▸ hids)
        exact ⟨m, (hremains m).2 hm⟩
      · exact absurd hnone hids
      -- the live routine is not told to stop, so it does not leave
      · obtain ⟨w, w', d, hw, hstep, -, hw', -⟩ := stepWorker_cases h
        obtain ⟨⟨hkey, hsame⟩, -⟩ := Worker.frame_of_step hstep
        obtain ⟨v, hv, hkv⟩ := hs.orderly.tracks.sound.live hlive
        obtain rfl := Option.some.inj (hw.symm.trans hv)
        refine ⟨n, w', hw', hkey.trans hkv, ?_⟩
        rw [← Bool.not_eq_true]
        intro hleaving
        have hstopped := ((atDesks_step hs.orderly.atDesks h).of_getElem? hw').leaving hleaving
        have hgoes : w'.handle.isStopped t.root = false := by
          rw [Handle.isStopped_eq_false_iff, hsame]
          exact ⟨(hs.orderly.tracks.sound.unstopped hw).2 (hkv ▸ hlive), hroot⟩
        cases hstopped.symm.trans hgoes
  | stopAll => exact absurd rfl hstop
  | _ =>
      have hstays := stays_step hs.orderly.tracks ha h nofun
      obtain ⟨n, hn⟩ := htended.remains k (hstays.cache ▸ hids)
      exact ⟨n, hstays.remains hn⟩

theorem tended_of_run {scheduler : SchedulerSettings} {state : StateSettings} {clock : Moment}
    (ha : ∀ a ∈ as, a.IsListed ∧ a ≠ .stopAll)
    (h : (new scheduler state clock).run? as = some s) : s.Tended := by
  induction as using List.reverseRecOn generalizing s with
  | nil =>
      cases h
      exact ⟨rfl, fun _ hids => absurd rfl hids⟩
  | append_singleton as a ih =>
      rw [run?_snoc] at h
      obtain ⟨u, hu, hstep⟩ := Option.bind_eq_some_iff.1 h
      have hbefore : ∀ b ∈ as, b.IsListed ∧ b ≠ .stopAll := fun b hb =>
        ha b (List.mem_append_left _ hb)
      obtain ⟨hlisted, hstop⟩ := ha a (List.mem_append_right _ List.mem_cons_self)
      have hu' := (Reached.new scheduler state clock).run (fun b hb => (hbefore b hb).1) hu
      exact tended_step hu' (ih hbefore hu) hlisted hstop hstep

/-! ## Deletion -/

/-- **What a deletion leaves of a rule.** After a deletion any run without a new listing can
go on until the routines of the deleted rules are at rest. Then a deleted rule has no
instance exactly if it had none, or one of its routines that was yet to leave has exited.
Where all instances come from evaluations, and no stop for all came first, none is left
unless a routine of the rule crashed. -/
theorem instances_after_delete (hs : s.Reached) (ks : List RuleKey)
    (ha : ∀ a ∈ as, a.IsSilent) (h : (s.delete ks).run? as = some t) :
    (∃ as' u, (∀ a ∈ as', a.IsSilent) ∧ t.run? as' = some u ∧ ∀ k ∈ ks, u.AtRest k) ∧
    ∀ k ∈ ks, t.AtRest k →
      ((t.shared.cache.ofRule k).values = [] ↔
        (s.shared.cache.ofRule k).values = [] ∨ ∃ n, s.Remains k n ∧ t.HasExited n) ∧
      ∀ scheduler state clock before, (∀ a ∈ before, a.IsListed ∧ a ≠ .stopAll) →
        (new scheduler state clock).run? before = some s →
        (∀ w ∈ t.registry.entries, w.key = k → w.phase ≠ .crashed) →
          (t.shared.cache.ofRule k).values = [] := by
  have hdelete : s.step? (.delete ks) = some (s.delete ks) := rfl
  have hdeleted : (s.delete ks).Reached := hs.step (a := .delete ks) trivial hdelete
  have hdead : ∀ k ∈ ks, (s.delete ks).isRunning k = false := by
    intro k hk
    rw [isRunning, find?_delete, if_pos hk]
    rfl
  have hgone : ∀ k ∈ ks, t.isRunning k = false := fun k hk =>
    (not_running_run hdeleted.orderly.tracks ha h (hdead k hk)).2
  have ht : t.Reached := hdeleted.run (fun a ha' => (ha a ha').isListed) h
  refine ⟨exists_atRest ht hgone, fun k hk hrest => ?_⟩
  have hstays := stays_step hs.orderly.tracks (a := .delete ks) trivial hdelete (by simp)
  have hclears : Clears k s t :=
    (clears_of_stays hstays hdeleted.orderly.tracks (hdead k hk)).trans
      (clears_run hdeleted (hdead k hk) ha h)
  have hiff : (t.shared.cache.ofRule k).values = [] ↔
      (s.shared.cache.ofRule k).values = [] ∨ ∃ n, s.Remains k n ∧ t.HasExited n := by
    rw [Cache.values_eq_nil_iff, Cache.values_eq_nil_iff, hclears.ids]
    refine or_congr_right (exists_congr fun n => and_congr_right fun hn => ?_)
    obtain ⟨w, hw, hkey, -⟩ := hn
    have hmine := hclears.key n ((key?_eq hw).trans (congrArg some hkey))
    exact (hasExited_iff ht (hgone k hk) hrest hmine).symm
  refine ⟨hiff, fun scheduler state clock before hbefore hstart hcrash => ?_⟩
  rw [hiff, Cache.values_eq_nil_iff]
  by_cases hids : s.shared.cache.ids k = []
  · exact Or.inl hids
  · obtain ⟨n, hn⟩ := (tended_of_run hbefore hstart).remains k hids
    refine Or.inr ⟨n, hn, ?_⟩
    obtain ⟨w, hw, hkey, -⟩ := hn
    obtain ⟨w', hw', hkey'⟩ := Option.map_eq_some_iff.1
      (hclears.key n ((key?_eq hw).trans (congrArg some hkey)))
    refine ⟨w', hw', ?_⟩
    exact (Worker.isLive_eq_false_iff.1 (hrest.not_live ht (hgone k hk) hw' hkey')).resolve_right
      (hcrash w' (List.mem_of_getElem? hw') hkey')

/-- An instance alerts, and its rule is being evaluated again. -/
def reevaluating : List Action :=
  [.tick .epoch (some (.ofListing [{ uid := "b", intervalSeconds := 10 }] ∅)), .release 0,
   .worker 0 .wake, .worker 0 .look, .worker 0 (.built (.ok ())),
   .worker 0 (.evaluated (.ok [{ labels := ∅, status := .alerting, time := .epoch }])),
   .worker 0 .proceed, .worker 0 .delivered,
   .elapse 10000, .tick ⟨10 * nanosPerSecond⟩ none, .release 1,
   .worker 0 .wake, .worker 0 .look, .worker 0 (.built (.ok ())), .worker 0 .suspend]

/-- The routine gives the evaluation up, the row goes, and the closing alert is sent. -/
def departing : List Action :=
  [.worker 0 .look, .worker 0 .wake, .worker 0 (.stored 0 true), .worker 0 .delivered]

theorem instances_after_delete_reevaluating :
    (∀ a ∈ departing, a.IsSilent) ∧ ∃ s t : System, s.Reached ∧
      (s.delete [⟨1, "b"⟩]).run? departing = some t ∧ t.AtRest ⟨1, "b"⟩ ∧
      (s.shared.cache.ofRule ⟨1, "b"⟩).values ≠ [] ∧
      (t.shared.cache.ofRule ⟨1, "b"⟩).values = [] ∧
      ∃ n, s.Remains ⟨1, "b"⟩ n ∧ t.HasExited n := by
  have hl : ∀ a ∈ reevaluating, a.IsListed ∧ a ≠ .stopAll := by
    simp only [reevaluating, List.forall_mem_cons]
    exact ⟨⟨⟨_, _, rfl⟩, nofun⟩, by simp [Action.IsListed]⟩
  have hsilent : ∀ a ∈ departing, a.IsSilent := by simp [departing, Action.IsSilent]
  have hrun : ((new {} {} .epoch).run? reevaluating).bind (fun s =>
      ((s.delete [⟨1, "b"⟩]).run? departing).map fun t =>
        ((s.shared.cache.ofRule ⟨1, "b"⟩).values.length,
          t.registry.entries.all fun w => !w.isLive && w.phase.isLeaving)) = some (1, true) := by
    decide +kernel
  obtain ⟨s, hs, h⟩ := Option.bind_eq_some_iff.1 hrun
  obtain ⟨t, ht, h⟩ := Option.map_eq_some_iff.1 h
  obtain ⟨hone, hleft⟩ := Prod.mk.inj h
  have hreached : s.Reached := (Reached.new {} {} .epoch).run (fun a ha => (hl a ha).1) hs
  have hover : ∀ w ∈ t.registry.entries, w.isLive = false ∧ w.phase.isLeaving = true := by
    simpa using hleft
  have hrest : t.AtRest ⟨1, "b"⟩ := by
    intro n hn input
    obtain ⟨w, hw, -⟩ := Option.map_eq_some_iff.1 hn
    rw [stepWorker?_eq hw, Worker.step_of_not_live (hover w (List.mem_of_getElem? hw)).1]
    rfl
  obtain ⟨hiff, hall⟩ :=
    (instances_after_delete hreached [⟨1, "b"⟩] hsilent ht).2 _ List.mem_cons_self hrest
  have hnone := hall {} {} .epoch reevaluating hl hs fun w hw _ hphase => by
    have hleaving := (hover w hw).2
    rw [hphase] at hleaving
    cases hleaving
  have hsome : (s.shared.cache.ofRule ⟨1, "b"⟩).values ≠ [] := by
    rw [← List.length_pos_iff, hone]
    exact Nat.one_pos
  exact ⟨hsilent, s, t, hreached, ht, hrest, hsome, hnone, (hiff.1 hnone).resolve_left hsome⟩

/-- A new engine with a cache that was warmed up from the row of an alerting instance. -/
def warmed : System :=
  { new {} {} .epoch with
    shared :=
      let row : Row := {
        org := 1, ruleUid := "b", labels := ∅, hash := "", status := .alerting, reason := ""
        since := some .epoch, endsAt := none, lastEvaluation := .epoch }
      let cache := (Cache.restore? {} {} [{ uid := "b" }] [row]).map Prod.snd
      { clock := .epoch, cache := cache.getD {} } }

/-- Without a routine to clear them the instances of a deleted rule stay. -/
theorem restored_outlive_deletion :
    warmed.Reached ∧ (warmed.delete [⟨1, "b"⟩]).dispatches = [] ∧
      (∀ n input, (warmed.delete [⟨1, "b"⟩]).stepWorker? n input = none) ∧
      ((warmed.delete [⟨1, "b"⟩]).shared.cache.ofRule ⟨1, "b"⟩).values ≠ [] := by
  have hlength : ((warmed.delete [⟨1, "b"⟩]).shared.cache.ofRule ⟨1, "b"⟩).values.length = 1 := by
    decide +kernel
  refine ⟨.manage (.new {} {} .epoch) _, rfl, fun n input => rfl, ?_⟩
  rw [← List.length_pos_iff, hlength]
  exact Nat.one_pos

end System

end Vigil
