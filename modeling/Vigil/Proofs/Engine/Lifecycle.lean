import Vigil.Proofs.Engine.Steps
import Vigil.Proofs.Engine.Tick
import Vigil.Proofs.Mailbox.Engine

/-!
# The life of a routine

In a run of an engine the rules that have a live routine are always those of the rule
set (`System.tracks_of_run`). A tick starts one routine for each rule that has none,
whatever its interval is, and dismisses the routines of the rules that are gone
(`System.Turns`). A tick that gets no listing works on the rules that are there, so it
starts and dismisses nothing, and a rule that was deleted stays away until some listing
brings it back. All of it is put together in `System.lifecycle_of_run`.
-/

namespace Vigil

theorem Handle.key_offer (h : Handle) (root : Option StopReason) (e : Evaluation) :
    (h.offer root e).2.key = h.key := by
  unfold offer
  split
  · rfl
  split
  · rfl
  · rfl

theorem Handle.stop_offer (h : Handle) (root : Option StopReason) (e : Evaluation) :
    (h.offer root e).2.stop = h.stop := by
  unfold offer
  split
  · rfl
  split
  · rfl
  · rfl

theorem Handle.key_post (h : Handle) (root : Option StopReason) (version : Int) :
    (h.post root version).2.key = h.key := by
  unfold post
  split
  · rfl
  · rfl

theorem Handle.stop_post (h : Handle) (root : Option StopReason) (version : Int) :
    (h.post root version).2.stop = h.stop := by
  unfold post
  split
  · rfl
  · rfl

/-- A routine never changes its rule or its stop signal, nor the settings or the time. -/
theorem Worker.frame_of_step {root : Option StopReason} {input : Input} {w w' : Worker}
    {d d' : Shared} (h : w.step? root input d = some (w', d')) :
    (w'.key = w.key ∧ w'.handle.stop = w.handle.stop) ∧
      d'.scheduler = d.scheduler ∧ d'.uptime = d.uptime := by
  by_cases hidle : w.phase = .idle
  · rcases moves_wake hidle (wake?_of_idle hidle h) with hm | ⟨-, e, -, hm⟩
    · exact ⟨⟨hm.key, hm.stop⟩, hm.shared.scheduler, hm.shared.uptime⟩
    · exact ⟨⟨hm.key, hm.stop⟩, hm.shared.scheduler, hm.shared.uptime⟩
  · have hm := moves_step hidle h
    exact ⟨⟨hm.key, hm.stop⟩, hm.shared.scheduler, hm.shared.uptime⟩

namespace System

variable {s t : System}

/-! ## Releases -/

/-- What becomes of a dispatch that goes on. -/
theorem release_cases {number : Nat} (h : s.release? number = some t) :
    ∃ d w, s.dispatches.find? (·.number == number) = some d ∧
      s.registry.entries[d.worker]? = some w ∧
      (t = { s with dispatches := s.dispatches.filter (·.number != number) } ∨
        w.handle.isStopped s.root = false ∧ d.dueAt ≤ s.shared.uptime ∧
        ∃ metrics, t = { s with
          shared := { s.shared with metrics }
          registry := s.registry.modify d.worker fun u =>
            { u with handle := (w.handle.offer s.root d.evaluation).2 }
          dispatches := s.dispatches.filter (·.number != number) }) := by
  obtain ⟨d, hd, h⟩ := Option.bind_eq_some_iff.1 h
  obtain ⟨w, hw, h⟩ := Option.bind_eq_some_iff.1 h
  refine ⟨d, w, hd, hw, ?_⟩
  dsimp only at h
  split at h
  · exact Or.inl (Option.some.inj h).symm
  · rename_i hstopped
    split at h
    · rename_i hdue
      refine Or.inr ⟨Bool.eq_false_iff.2 hstopped, hdue, ?_⟩
      -- an evaluation that comes back is counted
      split at h
      · exact ⟨_, (Option.some.inj h).symm⟩
      · exact ⟨_, (Option.some.inj h).symm⟩
    · cases h

/-! ## Settings -/

/-- Nothing changes the settings of an engine. -/
theorem settings_step {a : Action} (h : s.step? a = some t) : t.settings = s.settings := by
  cases a with
  | tick time listing =>
      cases h
      obtain ⟨metrics, hshared⟩ := s.shared_tick time listing
      rw [settings, hshared]
      rfl
  | delete ks =>
      cases h
      rw [delete_eq]
      rfl
  | update k version =>
      cases h
      unfold update
      split
      · rfl
      · rfl
  | release number =>
      obtain ⟨d, w, -, -, rfl | ⟨-, -, metrics, rfl⟩⟩ := release_cases h
      · rfl
      · rfl
  | worker n input =>
      obtain ⟨w, -, h⟩ := Option.bind_eq_some_iff.1 h
      obtain ⟨⟨w', shared⟩, hstep, h⟩ := Option.bind_eq_some_iff.1 h
      cases h
      exact (Worker.frame_of_step hstep).2.1
  | _ =>
      cases h
      rfl

/-! ## The invariant -/

/-- The rules that have a live routine are those of the rule set. -/
structure Tracks (s : System) : Prop where
  keyed : s.rules.Keyed
  sound : s.registry.Sound
  running : ∀ k, s.isRunning k = s.rules.rules.contains k

theorem tracks_new (scheduler : SchedulerSettings) (state : StateSettings) (clock : Moment) :
    Tracks (new scheduler state clock) :=
  ⟨RuleSet.keyed_empty, Registry.sound_empty, fun _ => rfl⟩

theorem Tracks.of_modify (hs : s.Tracks) (hr : t.rules = s.rules) {n : Nat} {f : Worker → Worker}
    (hg : t.registry = s.registry.modify n f)
    (hf : ∀ w, s.registry.entries[n]? = some w →
      (f w).key = w.key ∧ (f w).handle.stop = w.handle.stop) : t.Tracks := by
  refine ⟨hr ▸ hs.keyed, hg ▸ hs.sound.modify n hf, fun k => ?_⟩
  rw [hr, ← hs.running k, isRunning, hg]
  rfl

theorem Tracks.delete (hs : s.Tracks) (ks : List RuleKey) : (s.delete ks).Tracks := by
  refine ⟨keyed_delete hs.keyed ks, sound_delete hs.sound ks, fun k => ?_⟩
  rw [isRunning, find?_delete, contains_delete, ← hs.running k]
  by_cases hk : k ∈ ks
  · simp [hk]
  · simp [hk, isRunning]

/-! ## Ticks -/

/-- A tick of `s` with these rules to run. -/
structure Turns (s : System) (rules : RuleSet) (report : TickReport) (t : System) : Prop where
  rules_eq : t.rules = rules
  running : ∀ k, t.isRunning k = rules.rules.contains k
  sorted : report.stopped.Pairwise fun a b => compare a b = .lt
  stopped_iff : ∀ k, k ∈ report.stopped ↔ s.isRunning k = true ∧ rules.rules.contains k = false
  /-- One new routine for each rule that had none, and no change but for dismissals. -/
  entries : t.registry.entries =
    dismissAll report.stopped s.registry.entries ++
      (rules.rules.keys.filter fun k => !s.isRunning k).map Worker.new
  dismissed : ∀ k ∈ report.stopped, ∃ n w, s.registry.find? k = some n ∧
    t.registry.entries[n]? = some w ∧ w.key = k ∧ w.handle.stop = some .ruleDeleted

/-- New routines are for rules that are not gone. -/
theorem dismissAll_append_new {ks : List RuleKey} {ws : List Worker} {new : List RuleKey}
    (h : ∀ k ∈ new, k ∉ ks) :
    dismissAll ks (ws ++ new.map Worker.new) = dismissAll ks ws ++ new.map Worker.new := by
  unfold dismissAll
  rw [List.map_append, List.map_map]
  refine congrArg _ (List.map_congr_left fun k hk => ?_)
  exact if_neg (h k hk)

theorem Tracks.tick (hs : s.Tracks) (time : Moment) (listing : Option RuleSet) {rules : RuleSet}
    (hrules : listing.getD s.rules = rules) (hk : rules.Keyed) :
    (s.tick time listing).2.Tracks ∧
      s.Turns rules (s.tick time listing).1 (s.tick time listing).2 := by
  obtain ⟨ds, -, htick⟩ := tick_eq hrules hk time rfl
  have hstopped : (s.tick time listing).1.stopped = s.gone rules := by
    subst hrules
    rfl
  have hgone : ∀ k ∈ s.gone rules, rules.rules.contains k = false := fun k h =>
    (mem_gone_iff.1 h).2
  have hrules' : (s.tick time listing).2.rules = rules := by
    rw [htick, rules_delete_of_not_contains hgone]
  have hensured := hs.sound.ensure rules.rules.keys
  have hrunning : ∀ k, (s.tick time listing).2.isRunning k = rules.rules.contains k := by
    intro k
    rw [htick, isRunning, find?_delete]
    by_cases hk : k ∈ s.gone rules
    · rw [if_pos hk, hgone k hk]
      rfl
    · rw [if_neg hk]
      show ((s.registry.ensure rules.rules.keys).find? k).isSome = _
      rw [Registry.isSome_find?_ensure]
      cases hcontains : rules.rules.contains k with
      | true => rw [decide_eq_true (Table.mem_keys_iff.2 hcontains), Bool.true_or]
      | false =>
          -- a rule that is not listed and not gone was not running either
          have hnot : s.isRunning k = false := by
            rw [← Bool.not_eq_true]
            exact fun h => hk (mem_gone_iff.2 ⟨h, hcontains⟩)
          have hkeys : ¬ k ∈ rules.rules.keys := by
            rw [Table.mem_keys_iff, hcontains]
            exact Bool.false_ne_true
          rw [decide_eq_false hkeys, Bool.false_or]
          exact hnot
  have hsound : (s.tick time listing).2.registry.Sound := by
    rw [htick]
    exact sound_delete hensured _
  have hentries : (s.tick time listing).2.registry.entries =
      dismissAll (s.tick time listing).1.stopped s.registry.entries ++
        (rules.rules.keys.filter fun k => !s.isRunning k).map Worker.new := by
    rw [hstopped, htick, entries_delete hensured, Registry.entries_ensure _ (Table.nodup_keys _)]
    refine dismissAll_append_new fun k hk hgone => ?_
    have hnew := (List.mem_filter.1 hk).2
    have hold := (mem_gone_iff.1 hgone).1
    rw [isRunning] at hold
    rw [hold] at hnew
    cases hnew
  refine ⟨⟨hrules' ▸ hk, hsound, fun k => by rw [hrunning, hrules']⟩,
    ⟨hrules', hrunning, ?_, ?_, hentries, ?_⟩⟩
  · rw [hstopped]
    exact (Table.sorted_keys _).filter _
  · intro k
    rw [hstopped]
    exact mem_gone_iff
  · intro k hstop
    rw [hstopped] at hstop
    obtain ⟨n, hn⟩ := Option.isSome_iff_exists.1 (mem_gone_iff.1 hstop).1
    obtain ⟨w, hw, hkey⟩ := hs.sound.live hn
    refine ⟨n, w.dismissed, hn, ?_, w.key_dismissed.trans hkey, ?_⟩
    · rw [hentries, hstopped, List.getElem?_append_left, dismissAll, List.getElem?_map, hw,
        Option.map_some, if_pos (hkey ▸ hstop)]
      rw [dismissAll, List.length_map]
      exact (List.getElem?_eq_some_iff.1 hw).1
    · exact Worker.stop_dismissed_of_live ((hs.sound.unstopped hw).2 (hkey ▸ hn))

/-- Without a listing a tick starts and dismisses nothing. -/
theorem Tracks.tick_none (hs : s.Tracks) (time : Moment) :
    (s.tick time none).1.stopped = [] ∧ (s.tick time none).2.registry = s.registry := by
  have hnone : s.gone s.rules = [] := by
    refine List.eq_nil_iff_forall_not_mem.2 fun k hk => ?_
    obtain ⟨hrun, hnot⟩ := mem_gone_iff.1 hk
    rw [hs.running, hnot] at hrun
    cases hrun
  have hensure : s.registry.ensure s.rules.rules.keys = s.registry :=
    Registry.ensure_of_live fun k hk => (hs.running k).trans (Table.mem_keys_iff.1 hk)
  have hkept : none.getD s.rules = s.rules := rfl
  obtain ⟨ds, -, htick⟩ := tick_eq hkept hs.keyed time hensure
  refine ⟨hnone, ?_⟩
  rw [htick, hnone]
  rfl

/-! ## Runs -/

/-- A listing that a tick gets is one of rules. -/
def Action.IsListed : Action → Prop
  | .tick _ (some rules) => ∃ listed folders, rules = .ofListing listed folders
  | _ => True

/-- The actions that bring no listing. -/
def Action.IsSilent : Action → Prop
  | .tick _ (some _) => False
  | _ => True

/-- The rules that a tick works on stand under their keys. -/
theorem Tracks.keyed_getD (hs : s.Tracks) {time : Moment} {listing : Option RuleSet}
    (ha : (Action.tick time listing).IsListed) : (listing.getD s.rules).Keyed := by
  cases listing with
  | none => exact hs.keyed
  | some rules =>
      obtain ⟨listed, folders, rfl⟩ := ha
      exact RuleSet.keyed_ofListing listed folders

theorem tracks_step (hs : s.Tracks) {a : Action} (ha : a.IsListed) (h : s.step? a = some t) :
    t.Tracks := by
  cases a with
  | setClock clock =>
      cases h
      exact ⟨hs.keyed, hs.sound, hs.running⟩
  | elapse millis =>
      cases h
      exact ⟨hs.keyed, hs.sound, hs.running⟩
  | tick time listing =>
      cases h
      exact (hs.tick time listing rfl (hs.keyed_getD ha)).1
  | delete ks =>
      cases h
      exact hs.delete ks
  | update k version =>
      cases h
      unfold update
      split
      · refine hs.of_modify rfl rfl fun w _ => ?_
        exact ⟨w.handle.key_post s.root version, w.handle.stop_post s.root version⟩
      · exact hs
  | stopAll =>
      cases h
      exact ⟨hs.keyed, hs.sound, hs.running⟩
  | release number =>
      obtain ⟨d, w, -, hw, rfl | ⟨-, -, metrics, rfl⟩⟩ := release_cases h
      · exact ⟨hs.keyed, hs.sound, hs.running⟩
      · refine hs.of_modify rfl rfl fun u hu => ?_
        obtain rfl := Option.some.inj (hw.symm.trans hu)
        exact ⟨w.handle.key_offer s.root d.evaluation, w.handle.stop_offer s.root d.evaluation⟩
  | worker n input =>
      obtain ⟨w, hw, h⟩ := Option.bind_eq_some_iff.1 h
      obtain ⟨⟨w', shared⟩, hstep, h⟩ := Option.bind_eq_some_iff.1 h
      cases h
      refine hs.of_modify rfl rfl fun u hu => ?_
      obtain rfl := Option.some.inj (hw.symm.trans hu)
      exact (Worker.frame_of_step hstep).1

/-- **The rules that run are the rules of the rule set.** -/
theorem tracks_of_run {scheduler : SchedulerSettings} {state : StateSettings} {clock : Moment}
    {as : List Action} (hl : ∀ a ∈ as, a.IsListed)
    (h : (new scheduler state clock).run? as = some s) : s.Tracks := by
  induction as using List.reverseRecOn generalizing s with
  | nil =>
      cases h
      exact tracks_new scheduler state clock
  | append_singleton as a ih =>
      rw [run?_snoc] at h
      obtain ⟨u, hu, hstep⟩ := Option.bind_eq_some_iff.1 h
      have htracks := ih (fun b hb => hl b (List.mem_append_left _ hb)) hu
      exact tracks_step htracks (hl a (List.mem_append_right _ List.mem_cons_self)) hstep

/-- What does not run is not started by an action without a listing. -/
theorem not_running_step (hs : s.Tracks) {a : Action} (ha : a.IsSilent) (h : s.step? a = some t)
    {k : RuleKey} (hk : s.isRunning k = false) : t.isRunning k = false := by
  have hstays : ∀ {u : System}, u.registry.live = s.registry.live → u.isRunning k = false := by
    intro u hu
    rw [isRunning, Registry.find?, hu]
    exact hk
  cases a with
  | setClock clock =>
      cases h
      exact hk
  | elapse millis =>
      cases h
      exact hk
  | tick time listing =>
      cases h
      cases listing with
      | none => exact hstays (congrArg Registry.live (hs.tick_none time).2)
      | some rules => exact absurd ha id
  | delete ks =>
      cases h
      rw [isRunning, find?_delete]
      split
      · rfl
      · exact hk
  | update key version =>
      cases h
      unfold update
      split
      · exact hstays rfl
      · exact hk
  | stopAll =>
      cases h
      exact hk
  | release number =>
      obtain ⟨d, w, -, -, rfl | ⟨-, -, metrics, rfl⟩⟩ := release_cases h
      · exact hk
      · exact hstays rfl
  | worker n input =>
      obtain ⟨w, hw, h⟩ := Option.bind_eq_some_iff.1 h
      obtain ⟨⟨w', shared⟩, hstep, h⟩ := Option.bind_eq_some_iff.1 h
      cases h
      exact hstays rfl

theorem Action.IsSilent.isListed {a : Action} (ha : a.IsSilent) : a.IsListed := by
  cases a with
  | tick time listing =>
      cases listing with
      | none => trivial
      | some rules => exact absurd ha id
  | _ => trivial

theorem not_running_run (hs : s.Tracks) {as : List Action} (ha : ∀ a ∈ as, a.IsSilent)
    (h : s.run? as = some t) {k : RuleKey} (hk : s.isRunning k = false) :
    t.Tracks ∧ t.isRunning k = false := by
  induction as using List.reverseRecOn generalizing t with
  | nil =>
      cases h
      exact ⟨hs, hk⟩
  | append_singleton as a ih =>
      rw [run?_snoc] at h
      obtain ⟨u, hu, hstep⟩ := Option.bind_eq_some_iff.1 h
      obtain ⟨htracks, hstill⟩ := ih (fun b hb => ha b (List.mem_append_left _ hb)) hu
      have hlast := ha a (List.mem_append_right _ List.mem_cons_self)
      exact ⟨tracks_step htracks hlast.isListed hstep,
        not_running_step htracks hlast hstep hstill⟩

/-- **The life of routines in an engine.** After any run the rules that have a live
routine are those of the rule set, and a routine is live as long as it has not been told
to stop. A tick that gets a listing starts the missing routines and dismisses those whose
rules are gone; one that gets none does what it would with a listing of the rules and
folders that are there, which is to start and dismiss nothing. A deleted rule stays away
until a listing comes. -/
theorem lifecycle_of_run {scheduler : SchedulerSettings} {state : StateSettings} {clock : Moment}
    {as : List Action} (hl : ∀ a ∈ as, a.IsListed)
    (h : (new scheduler state clock).run? as = some s) :
    (∀ k, s.isRunning k = s.rules.rules.contains k) ∧
    s.registry.Sound ∧
    (∀ time listed folders,
      let rules := RuleSet.ofListing listed folders
      s.Turns rules (s.tick time (some rules)).1 (s.tick time (some rules)).2) ∧
    (∀ time, s.tick time none = s.tick time (some (.ofListing s.rules.all s.rules.folders)) ∧
      (s.tick time none).1.stopped = [] ∧ (s.tick time none).2.registry = s.registry) ∧
    ∀ ks k, k ∈ ks → ∀ as' t, (∀ a ∈ as', a.IsSilent) → (s.delete ks).run? as' = some t →
      t.isRunning k = false := by
  have hs := tracks_of_run hl h
  refine ⟨hs.running, hs.sound, ?_, ?_, ?_⟩
  · intro time listed folders
    exact (hs.tick time (some _) rfl (RuleSet.keyed_ofListing listed folders)).2
  · intro time
    refine ⟨?_, hs.tick_none time⟩
    rw [hs.keyed.ofListing_all]
    rfl
  · intro ks k hk as' t hsilent hrun
    have hdeleted : (s.delete ks).isRunning k = false := by
      rw [isRunning, find?_delete, if_pos hk]
      rfl
    exact (not_running_run (hs.delete ks) hsilent hrun hdeleted).2

/-- Two rules of which one has an interval that no tick fits, and the other is deleted
before a tick without a listing. -/
def upheaval : List Action :=
  [.tick .epoch (some (.ofListing
    [{ uid := "even" }, { uid := "odd", intervalSeconds := 7 }] ∅)),
   .delete [⟨1, "even"⟩], .tick ⟨10 * nanosPerSecond⟩ none]

/-- The odd rule runs, and goes with the first listing that lacks it. -/
theorem lifecycle_of_run_upheaval :
    (∀ a ∈ upheaval, a.IsListed) ∧ ∃ s, (new {} {} .epoch).run? upheaval = some s ∧
      s.isRunning ⟨1, "odd"⟩ = true ∧ s.isRunning ⟨1, "even"⟩ = false ∧
      ⟨1, "odd"⟩ ∈ (s.tick ⟨20 * nanosPerSecond⟩ (some (.ofListing [] ∅))).1.stopped := by
  have hl : ∀ a ∈ upheaval, a.IsListed := by
    intro a ha
    simp only [upheaval, List.mem_cons, List.not_mem_nil, or_false] at ha
    rcases ha with rfl | rfl | rfl
    · exact ⟨_, _, rfl⟩
    · trivial
    · trivial
  obtain ⟨s, h⟩ : ∃ s, (new {} {} .epoch).run? upheaval = some s := ⟨_, rfl⟩
  have hkeys : ((new {} {} .epoch).run? upheaval).map (·.rules.rules.keys) =
      some [⟨1, "odd"⟩] := by decide +kernel
  rw [h, Option.map_some, Option.some.injEq] at hkeys
  obtain ⟨hrunning, -, hturns, -⟩ := lifecycle_of_run hl h
  have hodd : s.isRunning ⟨1, "odd"⟩ = true := by
    rw [hrunning, ← Table.mem_keys_iff, hkeys]
    decide
  have heven : s.isRunning ⟨1, "even"⟩ = false := by
    rw [hrunning, ← Bool.not_eq_true, ← Table.mem_keys_iff, hkeys]
    decide
  exact ⟨hl, s, h, hodd, heven, ((hturns _ [] ∅).stopped_iff _).2 ⟨hodd, rfl⟩⟩

end System

end Vigil
