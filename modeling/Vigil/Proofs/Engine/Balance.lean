import Vigil.Proofs.Engine.Accounts

/-!
# What a step makes of the book

Clocks, versions, deletions and stops leave the evaluations where they are, and a tick only
adds new ones (`System.rolls_tick`). When a dispatch is released or a routine steps, one case
goes on at most (`Case.booked_release`, `Case.booked_worker`). The observer's book is what the
step makes of it (`Case.booked_step`).
-/

namespace Vigil

namespace System

variable {s t : System} {a : Action} {as : List Action} {n : Nat} {w w' : Worker}

/-! ## Steps that no evaluation goes on in -/

theorem Rests.phase?_eq (h : s.Rests t) (n : Nat) : t.phase? n = s.phase? n := by
  have hrel := h.entries n
  unfold phase?
  generalize s.registry.entries[n]? = o at hrel
  generalize t.registry.entries[n]? = o' at hrel
  cases hrel with
  | none => rfl
  | some hw => exact congrArg some hw.phase

/-- A routine that was told to stop stays so. -/
theorem isStopped_mono (hs : s.Tracks) (ha : a.IsListed) (h : s.step? a = some t) (n : Nat)
    (hstop : s.isStopped n = true) : t.isStopped n = true := by
  obtain ⟨w, hw, hstopped⟩ := (Option.any_eq_true _ _).1 hstop
  obtain ⟨v, hv, -⟩ := path_step hs ha hw h
  rw [isStopped_eq hv]
  exact isStopped_step hs ha h hw hv hstopped

theorem rolls_of_rests (h : s.Rests t) (hdispatches : t.dispatches = s.dispatches)
    (hdispatched : t.dispatched = s.dispatched)
    (hmetrics : t.shared.metrics = s.shared.metrics)
    (hreports : t.shared.reports = s.shared.reports) : s.Rolls [] t where
  dispatches := hdispatches.trans (List.append_nil _).symm
  dispatched := hdispatched
  numbers := rfl
  addressed := List.forall_mem_nil _
  key n k hk := (h.key?_eq n).trans hk
  pending := h.pending?_eq
  phase n p hp := ⟨p, (h.phase?_eq n).trans hp, .refl p⟩
  fresh n p' hnone hp' := by
    rw [h.phase?_eq, hnone] at hp'
    cases hp'
  missed := congrArg _ hmetrics
  evaluations := congrArg _ hmetrics
  reports := hreports

/-- Ticks, offers and the steps of routines apart, nothing goes on. -/
theorem rolls_of_other (hs : s.Tracks) (h : s.step? a = some t)
    (htick : ∀ time listing, a ≠ .tick time listing) (hrelease : ∀ number, a ≠ .release number)
    (hworker : ∀ n input, a ≠ .worker n input) : s.Rolls [] t := by
  have hrests := rests_step hs.sound h htick hrelease hworker
  cases a with
  | tick time listing => exact absurd rfl (htick time listing)
  | release number => exact absurd rfl (hrelease number)
  | worker n input => exact absurd rfl (hworker n input)
  | delete ks =>
      cases h
      refine rolls_of_rests hrests ?_ ?_ ?_ ?_
      · rw [delete_eq]
      · rw [delete_eq]
      · rw [delete_eq]
      · rw [delete_eq]
  | update k version =>
      cases h
      unfold update at hrests ⊢
      split at hrests
      · exact rolls_of_rests hrests rfl rfl rfl rfl
      · exact rolls_of_rests hrests rfl rfl rfl rfl
  | _ =>
      cases h
      exact rolls_of_rests hrests rfl rfl rfl rfl

/-! ## Ticks -/

theorem exists_dispatch (s : System) (e : Evaluation) (delay : Span) :
    ∃ ds, (s.dispatch e delay).dispatches = s.dispatches ++ ds ∧
      (s.dispatch e delay).dispatched = s.dispatched + ds.length ∧
      ds.map (·.number) = List.range' s.dispatched ds.length := by
  unfold dispatch
  split
  · exact ⟨[], (List.append_nil _).symm, rfl, rfl⟩
  · exact ⟨[_], rfl, rfl, rfl⟩

/-- Dispatches are numbered in the order they are made. -/
theorem exists_dispatchAll (ready : List (Evaluation × Span)) (s : System) :
    ∃ ds, (ready.foldl (fun s (e, delay) => s.dispatch e delay) s).dispatches =
        s.dispatches ++ ds ∧
      ds.map (·.number) = List.range' s.dispatched ds.length := by
  induction ready generalizing s with
  | nil => exact ⟨[], (List.append_nil _).symm, rfl⟩
  | cons e ready ih =>
      obtain ⟨new, hnew, hcount, hnumbers⟩ := s.exists_dispatch e.1 e.2
      obtain ⟨ds, hds, hrest⟩ := ih (s.dispatch e.1 e.2)
      refine ⟨new ++ ds, ?_, ?_⟩
      · rw [← List.append_assoc, ← hnew]
        exact hds
      · rw [List.map_append, hnumbers, hrest, hcount, List.range'_append_1, List.length_append]

theorem numbers_tick (s : System) (time : Moment) (listing : Option RuleSet)
    {ds : List Dispatch} (hds : (s.tick time listing).2.dispatches = s.dispatches ++ ds) :
    ds.map (·.number) = List.range' s.dispatched ds.length := by
  obtain ⟨ds', hds', hnumbers⟩ := exists_dispatchAll
    (due s.settings (listing.getD s.rules) time)
    (startRoutines (recordRules { s with rules := listing.getD s.rules }
      ((listing.getD s.rules).all.map (·.uid))) (listing.getD s.rules).all)
  have hsame : (s.tick time listing).2.dispatches = s.dispatches ++ ds' := by
    rw [startRoutines_eq] at hds'
    unfold tick
    dsimp only
    rw [delete_eq, startRoutines_eq]
    exact hds'
  rw [startRoutines_eq] at hnumbers
  obtain rfl := List.append_cancel_left (hds.symm.trans hsame)
  exact hnumbers

theorem rolls_tick (hs : s.Tracks) (time : Moment) {listing : Option RuleSet}
    (hl : (Action.tick time listing).IsListed) :
    ∃ ds, s.Rolls ds (s.tick time listing).2 ∧
      ds.map (fun d => (d.evaluation.rule.key, d.evaluation.rule.version)) =
        (s.tick time listing).1.scheduled.map fun e => (e.key, e.version) := by
  have hkeyed := hs.keyed_getD hl
  have hstays := stays_step hs hl (t := (s.tick time listing).2) rfl nofun
  obtain ⟨ds, hsends, htick⟩ := tick_eq rfl hkeyed time rfl
  obtain ⟨ds', hdeals⟩ := deals_of_tick hs.sound time listing rfl hkeyed
  have hdispatches : (s.tick time listing).2.dispatches = s.dispatches ++ ds := by
    rw [htick, delete_eq]
  obtain rfl := List.append_cancel_left (hdeals.dispatches.symm.trans hdispatches)
  refine ⟨ds', ?_, ?_⟩
  · constructor
    case dispatches => exact hdispatches
    case dispatched => rw [htick, delete_eq]
    case numbers => exact numbers_tick s time listing hdispatches
    case addressed => exact fun d hd => (hdeals.sent d hd).2.1
    case key => exact hdeals.key
    case pending => exact hdeals.pending
    case phase =>
      intro n p hp
      obtain ⟨w, hw, rfl⟩ := Option.map_eq_some_iff.1 hp
      obtain ⟨w', hw', hstay⟩ := hstays.kept hw
      refine ⟨w'.phase, phase?_eq hw', ?_⟩
      rw [hstay.phase]
      exact .refl _
    case fresh =>
      intro n p' hnone hp'
      obtain ⟨w', hw', rfl⟩ := Option.map_eq_some_iff.1 hp'
      obtain ⟨k, rfl⟩ := hstays.fresh (Option.map_eq_none_iff.1 hnone) hw'
      rfl
    case missed => rw [htick, delete_eq]; rfl
    case evaluations => rw [htick, delete_eq]; rfl
    case reports => rw [htick, delete_eq]; rfl
  · have hmap := congrArg (List.map fun e : Evaluation => (e.rule.key, e.rule.version))
      hsends.evaluations
    rw [List.map_map, List.map_map] at hmap
    unfold tick
    dsimp only
    rw [List.map_map]
    exact hmap

/-! ## Offers -/

/-- What comes of a dispatch: it is too late for it, its routine is busy, or it fills the
mailbox. -/
theorem release_outcome {number : Nat} (h : s.release? number = some t) :
    ∃ d w, s.dispatches.find? (·.number == number) = some d ∧
      s.registry.entries[d.worker]? = some w ∧
      t.dispatches = s.dispatches.filter (·.number != number) ∧ t.dispatched = s.dispatched ∧
      t.root = s.root ∧
      (w.handle.isStopped s.root = true ∧ t.registry = s.registry ∧ t.shared = s.shared ∨
        w.handle.isStopped s.root = false ∧
          t.registry = s.registry.modify d.worker ({ · with handle := w.handle }) ∧
          t.shared = { s.shared with metrics := s.shared.metrics.recordMissed w.key } ∨
        w.handle.isStopped s.root = false ∧ w.handle.pending = none ∧
          t.registry = s.registry.modify d.worker ({ · with handle :=
            { w.handle with pending := some d.evaluation, evaluationPermit := true } }) ∧
          t.shared = s.shared) := by
  obtain ⟨d, hd, h⟩ := Option.bind_eq_some_iff.1 h
  obtain ⟨w, hw, h⟩ := Option.bind_eq_some_iff.1 h
  refine ⟨d, w, hd, hw, ?_⟩
  dsimp only at h
  split at h
  · rename_i hstop
    cases h
    exact ⟨rfl, rfl, rfl, Or.inl ⟨hstop, rfl, rfl⟩⟩
  rename_i hstop
  have hgoes : w.handle.isStopped s.root = false := Bool.eq_false_iff.2 hstop
  split at h
  · rw [Handle.offer, if_neg hstop] at h
    by_cases hbusy : (w.handle.running || w.handle.pending.isSome) = true
    · rw [if_pos hbusy] at h
      cases h
      exact ⟨rfl, rfl, rfl, Or.inr (Or.inl ⟨hgoes, rfl, rfl⟩)⟩
    · rw [if_neg hbusy] at h
      cases h
      rw [Bool.or_eq_true, not_or] at hbusy
      have hempty := Option.not_isSome_iff_eq_none.1 hbusy.2
      exact ⟨rfl, rfl, rfl, Or.inr (Or.inr ⟨hgoes, hempty, rfl, rfl⟩)⟩
  · cases h

theorem turned_of_rests (h : s.Rests t) (hdispatched : t.dispatched = s.dispatched) :
    s.Turned n t :=
  ⟨hdispatched, h.key?_eq, fun m _ => h.pending?_eq m, fun m _ => h.phase?_eq m⟩

theorem turned_of_replaced (hw : s.registry.entries[n]? = some w)
    (hw' : t.registry.entries[n]? = some w')
    (hothers : ∀ m, n ≠ m → t.registry.entries[m]? = s.registry.entries[m]?)
    (hkey : w'.key = w.key) (hdispatched : t.dispatched = s.dispatched) : s.Turned n t := by
  refine ⟨hdispatched, fun m => ?_, fun m hm => ?_, fun m hm => ?_⟩
  · by_cases hm : n = m
    · rw [← hm, key?_eq hw, key?_eq hw', hkey]
    · rw [key?, key?, hothers m hm]
  · rw [pending?, pending?, hothers m (Ne.symm hm)]
  · rw [phase?, phase?, hothers m (Ne.symm hm)]

/-- One routine steps and nothing comes of its evaluation. -/
theorem rolls_of_replaced (hw : s.registry.entries[n]? = some w)
    (hw' : t.registry.entries[n]? = some w')
    (hothers : ∀ m, n ≠ m → t.registry.entries[m]? = s.registry.entries[m]?)
    (hturned : s.Turned n t) (hpending : w'.handle.pending = w.handle.pending)
    (hphase : w.phase.Like w'.phase) (hdispatches : t.dispatches = s.dispatches)
    (hshared : t.shared.Quiet s.shared) : s.Rolls [] t where
  dispatches := hdispatches.trans (List.append_nil _).symm
  dispatched := hturned.dispatched
  numbers := rfl
  addressed := List.forall_mem_nil _
  key m k hk := (hturned.key m).trans hk
  pending m := by
    by_cases hm : m = n
    · rw [hm, pending?_eq hw, pending?_eq hw', hpending]
    · exact hturned.pending m hm
  phase m p hp := by
    by_cases hm : m = n
    · subst hm
      obtain rfl := Option.some.inj (hp.symm.trans (phase?_eq hw))
      exact ⟨w'.phase, phase?_eq hw', hphase⟩
    · exact ⟨p, (hturned.phase m hm).trans hp, .refl p⟩
  fresh m p' hnone hp' := by
    have hm : m ≠ n := by
      rintro rfl
      rw [phase?_eq hw] at hnone
      cases hnone
    rw [hturned.phase m hm, hnone] at hp'
    cases hp'
  missed := congrArg _ hshared.metrics
  evaluations := congrArg _ hshared.metrics
  reports := hshared.reports

/-- Only a tick sends evaluations. -/
theorem length_dispatches_le (hs : s.Tracks) (h : s.step? a = some t)
    (htick : ∀ time listing, a ≠ .tick time listing) :
    t.dispatches.length ≤ s.dispatches.length := by
  cases a with
  | tick time listing => exact absurd rfl (htick time listing)
  | release number =>
      obtain ⟨_, _, _, _, hdispatches, _⟩ := release_outcome h
      rw [hdispatches]
      exact List.length_filter_le _ _
  | worker n input =>
      obtain ⟨_, _, _, _, _, ht, _⟩ := stepWorker_cases h
      rw [ht]
  | _ => exact (rests_step hs.sound h htick nofun nofun).dispatches.length_le

end System

namespace Case

variable {s t : System} {cs : List Case} {c : Case} {before after : List Case}

/-- What a step makes of the book. -/
inductive Booked (s t : System) (cs : List Case) : List Case → Prop where
  | rolls {ds : List Dispatch} (h : s.Rolls ds t) : Booked s t cs (cs ++ ds.map ({ dispatch := · }))
  | becomes {before after : List Case} {c c' : Case} (hcs : cs = before ++ c :: after)
      (hothers : ∀ b ∈ before ++ after, b.Spared s t) (hturned : s.Turned c.worker t)
      (h : c.Becomes s t c') : Booked s t cs (before ++ c' :: after)

/-- What a mailbox holds stays there when the dispatch of another case is done with. -/
theorem Balanced.spared_of_sent (h : Balanced s (before ++ c :: after))
    (hdispatches : t.dispatches = s.dispatches.filter (·.number != c.dispatch.number))
    (hpending : ∀ n e, s.pending? n = some e → t.pending? n = some e)
    (hphase : ∀ n, t.phase? n = s.phase? n) : ∀ b ∈ before ++ after, b.Spared s t := by
  intro b hb
  have hmem := mem_of_others (c := c) hb
  refine ⟨fun hwas => ⟨b.dispatch, ?_, rfl⟩, fun hwas => ?_, fun _ => ?_⟩
  · rw [hdispatches]
    exact List.mem_filter.2 ⟨h.waiting_mem hmem hwas, bne_iff_ne.2 (h.number_ne b hb)⟩
  · have hfull := h.pending_eq hmem hwas
    exact (hpending _ _ hfull).trans hfull.symm
  · obtain ⟨p, hp⟩ := System.exists_phase_of_key (h.fits b hmem).key
    exact ⟨p, p, hp, (hphase _).trans hp, .refl p⟩

theorem booked_release (h : Balanced s cs) {number : Nat} (hstep : s.release? number = some t) :
    ∃ cs', Booked s t cs cs' := by
  obtain ⟨d, w, hd, hw, hdispatches, hdispatched, hroot, houtcome⟩ := System.release_outcome hstep
  have hmem := List.mem_of_find?_eq_some hd
  have hnumber := List.find?_some hd
  rw [beq_iff_eq] at hnumber
  subst hnumber
  obtain ⟨before, c, after, rfl, hwas, rfl⟩ := h.exists_split hmem
  have hsent : t.dispatches.Sublist s.dispatches := by
    rw [hdispatches]
    exact List.filter_sublist
  have hkey : w.key = c.key := by
    have hfits := (h.fits c (mem_middle before after c)).key
    exact Option.some.inj ((System.key?_eq hw).symm.trans hfits)
  have hstopped : s.isStopped c.worker = w.handle.isStopped s.root := System.isStopped_eq hw
  rcases houtcome with ⟨hstop, hregistry, hshared⟩ | ⟨hgoes, hregistry, hshared⟩ |
    ⟨hgoes, hempty, hregistry, hshared⟩
  · have hrests : s.Rests t := by
      refine .of_entries_eq (congrArg _ hregistry) ?_ hsent (congrArg _ hshared)
      exact fun hnone => hroot.symm.trans hnone
    have hbecomes : c.Becomes s t { c with progress := .withdrawn } :=
      .withdrawn hwas hdispatches (hrests.phase?_eq _) (hstopped.trans hstop)
        (hrests.pending?_eq _) hshared
    refine ⟨_, .becomes rfl ?_ (System.turned_of_rests hrests hdispatched) hbecomes⟩
    exact h.spared_of_sent hdispatches (fun n e he => (hrests.pending?_eq n).trans he)
      hrests.phase?_eq
  · have hrests : s.Rests t := by
      refine .of_modify c.dispatch.worker hregistry (fun u hu => ?_) hroot hsent ?_
      · obtain rfl := Option.some.inj (hw.symm.trans hu)
        exact .refl w
      · rw [hshared]
    have hbecomes : c.Becomes s t { c with progress := .missed } := by
      refine .missed hwas hdispatches (hrests.phase?_eq _) (hstopped.trans hgoes)
        (hrests.pending?_eq _) ?_
      rw [hshared, hkey]
    refine ⟨_, .becomes rfl ?_ (System.turned_of_rests hrests hdispatched) hbecomes⟩
    exact h.spared_of_sent hdispatches (fun n e he => (hrests.pending?_eq n).trans he)
      hrests.phase?_eq
  · have hw' : t.registry.entries[c.dispatch.worker]? = some { w with handle :=
        { w.handle with pending := some c.evaluation, evaluationPermit := true } } := by
      rw [hregistry, Registry.getElem?_modify, if_pos rfl, hw]
      rfl
    have hothers : ∀ m, c.dispatch.worker ≠ m →
        t.registry.entries[m]? = s.registry.entries[m]? := by
      intro m hm
      rw [hregistry, Registry.getElem?_modify, if_neg hm]
    have hturned := System.turned_of_replaced hw hw' hothers rfl hdispatched
    have hphase : t.phase? c.worker = s.phase? c.worker :=
      (System.phase?_eq hw').trans (System.phase?_eq hw).symm
    have hnone : s.pending? c.worker = none := (System.pending?_eq hw).trans hempty
    have hbecomes : c.Becomes s t { c with progress := .pending } :=
      .accepted hwas hdispatches hphase (hstopped.trans hgoes) hnone (System.pending?_eq hw')
        hshared
    refine ⟨_, .becomes rfl (h.spared_of_sent hdispatches (fun n e he => ?_) fun n => ?_) hturned
      hbecomes⟩
    · by_cases hn : n = c.worker
      · rw [hn, hnone] at he
        cases he
      · exact (hturned.pending n hn).trans he
    · by_cases hn : n = c.worker
      · exact hn ▸ hphase
      · exact hturned.phase n hn

/-- The others of routine `n` are neither in its mailbox nor at work. -/
theorem Balanced.spared_of_turned {n : Nat} (h : Balanced s (before ++ c :: after))
    (hturned : s.Turned n t) (hdispatches : t.dispatches = s.dispatches)
    (hpending : ∀ b ∈ before ++ after, b.progress = .pending → b.worker = n →
      t.pending? n = s.pending? n)
    (hrunning : ∀ b ∈ before ++ after, b.progress = .running → b.worker ≠ n) :
    ∀ b ∈ before ++ after, b.Spared s t := by
  intro b hb
  have hmem := mem_of_others (c := c) hb
  refine ⟨fun hwas => ⟨b.dispatch, hdispatches ▸ h.waiting_mem hmem hwas, rfl⟩, fun hwas => ?_,
    fun hwas => ?_⟩
  · by_cases hn : b.worker = n
    · rw [hn]
      exact hpending b hb hwas hn
    · exact hturned.pending _ hn
  · obtain ⟨p, hp⟩ := System.exists_phase_of_key (h.fits b hmem).key
    exact ⟨p, p, hp, (hturned.phase _ (hrunning b hb hwas)).trans hp, .refl p⟩

theorem booked_worker (h : Balanced s cs) {n : Nat} {input : Input}
    (hstep : s.stepWorker? n input = some t) : ∃ cs', Booked s t cs cs' := by
  obtain ⟨w, w', d, hw, hwork, ht, hw', hothers⟩ := System.stepWorker_cases hstep
  have hkey := (Worker.frame_of_step hwork).1.1
  have hdispatches : t.dispatches = s.dispatches := by rw [ht]
  have hshared : t.shared = d := by rw [ht]
  have hturned := System.turned_of_replaced hw hw' hothers hkey (by rw [ht])
  have hlive : w.phase ≠ .crashed := by
    intro hcrash
    rw [Worker.step_of_not_live (by rw [Worker.isLive, hcrash])] at hwork
    cases hwork
  have hrules : ∀ c ∈ cs, c.worker = n → w.key = c.key := by
    rintro c hc rfl
    exact Option.some.inj ((System.key?_eq hw).symm.trans (h.fits c hc).key)
  have hstopped : s.isStopped n = w.handle.isStopped s.root := System.isStopped_eq hw
  have hhandles := Worker.handles_step hwork
  generalize hr : (w', d) = r at hhandles
  cases hhandles with
  | keeps hpending hsame hcounted hd =>
      subst hr
      exact ⟨_, .rolls (System.rolls_of_replaced hw hw' hothers hturned hpending
        ⟨hcounted, fun _ => ⟨hlive, hsame⟩⟩ hdispatches (hshared ▸ hd))⟩
  | crashes hpending hcounted hcrash hd =>
      subst hr
      exact ⟨_, .rolls (System.rolls_of_replaced hw hw' hothers hturned hpending
        ⟨hcrash ▸ hcounted.symm, fun hnot => absurd hcrash hnot⟩ hdispatches (hshared ▸ hd))⟩
  | @takes _ e hgoes hidle hfull hempty hnew huncounted hd =>
      subst hr
      have hone : held cs .pending n = [e] := by
        rw [h.pending, System.pending?_eq hw, hfull]
        rfl
      obtain ⟨before, c, after, rfl, hwas, rfl, rfl, hunique⟩ := exists_split_of_held hone
      have hbecomes : c.Becomes s t { c with progress := .running } :=
        .taken hwas hdispatches (hstopped.trans hgoes)
          ((System.phase?_eq hw).trans (congrArg some hidle)) (System.phase?_eq hw') hnew huncounted
          ((System.pending?_eq hw').trans hempty) (hshared ▸ hd)
      -- the routine has nothing at work yet
      have hnone : held (before ++ c :: after) .running c.worker = [] := by
        rw [h.running _ w.phase (System.phase?_eq hw) hlive, hidle]
        rfl
      refine ⟨_, .becomes rfl (h.spared_of_turned hturned hdispatches ?_ ?_) hturned hbecomes⟩
      · exact fun b hb hb' hn => absurd hn (hunique b hb hb')
      · exact fun b hb hb' => held_eq_nil_iff.1 hnone b (mem_of_others hb) hb'
  | counts hat huncounted vs failed =>
      obtain ⟨rfl, rfl⟩ := Prod.mk.inj hr
      obtain ⟨before, c, after, rfl, hwas, rfl, hevaluation, hunique⟩ :=
        exists_split_of_held (h.held_running (System.phase?_eq hw) hat)
      have hpending : t.pending? c.worker = s.pending? c.worker :=
        (System.pending?_eq hw').trans (System.pending?_eq hw).symm
      have hbecomes : c.Becomes s t { c with counted := true } := by
        refine .counted hwas hdispatches hpending (System.phase?_eq hw) (hevaluation ▸ hat)
          huncounted (System.phase?_eq hw') ?_ rfl _ _ (hevaluation ▸ hshared)
        rw [hevaluation]
        rfl
      refine ⟨_, .becomes rfl (h.spared_of_turned hturned hdispatches ?_ hunique) hturned hbecomes⟩
      exact fun _ _ _ _ => hpending
  | quits hstop hpending hat hidle hd =>
      subst hr
      obtain ⟨before, c, after, rfl, hwas, rfl, rfl, hunique⟩ :=
        exists_split_of_held (h.held_running (System.phase?_eq hw) hat)
      have hpending' : t.pending? c.worker = s.pending? c.worker :=
        ((System.pending?_eq hw').trans hpending).trans (System.pending?_eq hw).symm
      have hbecomes : c.Becomes s t { c with progress := .cancelled } :=
        .cancelled hwas hdispatches hpending' (hstopped.trans hstop) (System.phase?_eq hw) hat
          ((System.phase?_eq hw').trans (congrArg some hidle)) (hshared ▸ hd)
      refine ⟨_, .becomes rfl (h.spared_of_turned hturned hdispatches ?_ hunique) hturned hbecomes⟩
      exact fun _ _ _ _ => hpending'
  | completes hat hcounted hd =>
      obtain ⟨rfl, rfl⟩ := Prod.mk.inj hr
      obtain ⟨before, c, after, rfl, hwas, rfl, hevaluation, hunique⟩ :=
        exists_split_of_held (h.held_running (System.phase?_eq hw) hat)
      have hpending : t.pending? c.worker = s.pending? c.worker :=
        (System.pending?_eq hw').trans (System.pending?_eq hw).symm
      have hbecomes : c.Becomes s t { c with progress := .completed } := by
        refine .completed hwas hdispatches hpending (System.phase?_eq hw) (hevaluation ▸ hat)
          hcounted (System.phase?_eq hw') ?_ ?_
        · rw [hshared]
          exact hd.metrics
        · rw [hshared, Shared.reports_log, hd.reports, hevaluation,
            hrules c (mem_middle before after c) rfl]
          rfl
      refine ⟨_, .becomes rfl (h.spared_of_turned hturned hdispatches ?_ hunique) hturned hbecomes⟩
      exact fun _ _ _ _ => hpending

/-! ## Steps of the engine -/

/-- An observer sees what becomes of a case. -/
theorem Becomes.next_eq {c' : Case} (h : c.Becomes s t c') : c.next s t = c' := by
  have hgone : t.dispatches = s.dispatches.filter (·.number != c.dispatch.number) →
      t.dispatches.any (·.number == c.dispatch.number) ≠ true := by
    intro ht hany
    obtain ⟨d, hd, hsame⟩ := List.any_eq_true.1 hany
    rw [ht] at hd
    exact bne_iff_ne.1 (List.mem_filter.1 hd).2 (beq_iff_eq.1 hsame)
  cases h with
  | withdrawn hwas hdispatches _ hstop =>
      refine next_eq_of_onward c ?_ (by simp [hwas])
      simp only [onward, hwas]
      rw [if_neg (hgone hdispatches), if_pos hstop]
  | missed hwas hdispatches _ hgoes hpending =>
      refine next_eq_of_onward c ?_ (by simp [hwas])
      simp only [onward, hwas]
      rw [if_neg (hgone hdispatches), if_neg (by simp [hgoes]), if_pos hpending]
  | accepted hwas hdispatches _ hgoes hempty hfull =>
      refine next_eq_of_onward c ?_ (by simp [hwas])
      simp only [onward, hwas]
      rw [if_neg (hgone hdispatches), if_neg (by simp [hgoes]), if_neg (by simp [hempty, hfull])]
  | taken hwas _ _ _ _ _ _ hempty =>
      refine next_eq_of_onward c ?_ (by simp [hwas])
      simp only [onward, hwas]
      rw [if_neg (by simp [hempty])]
  | counted hwas _ _ _ _ _ hphase hwork hcounted =>
      have hworking : t.isWorking c.worker = true := by
        rw [System.isWorking_eq hphase, Phase.isWorking_eq, hwork]
        rfl
      have hseen : t.isCounted c.worker = true := (System.isCounted_eq hphase).trans hcounted
      simp [next, onward, hwas, hworking, hseen]
  | cancelled hwas _ _ _ _ _ hidle hshared =>
      have hdone : t.isWorking c.worker = false := System.isWorking_eq hidle
      have hseen : t.isCounted c.worker = false := System.isCounted_eq hidle
      refine next_eq_of_onward c ?_ fun _ hcounted =>
        absurd (hseen.symm.trans hcounted) Bool.false_ne_true
      simp only [onward, hwas]
      rw [if_neg (by simp [hdone]), if_pos hshared.reports]
  | completed hwas _ _ _ _ _ hidle _ hreports =>
      have hdone : t.isWorking c.worker = false := System.isWorking_eq hidle
      have hseen : t.isCounted c.worker = false := System.isCounted_eq hidle
      refine next_eq_of_onward c ?_ fun _ hcounted =>
        absurd (hseen.symm.trans hcounted) Bool.false_ne_true
      simp only [onward, hwas]
      rw [if_neg (by simp [hdone]), if_neg (by simp [hreports])]

theorem Becomes.length_dispatches {c' : Case} (h : c.Becomes s t c') :
    t.dispatches.length ≤ s.dispatches.length := by
  have hfilter : t.dispatches = s.dispatches.filter (·.number != c.dispatch.number) →
      t.dispatches.length ≤ s.dispatches.length := by
    intro ht
    rw [ht]
    exact List.length_filter_le _ _
  have hsame : t.dispatches = s.dispatches → t.dispatches.length ≤ s.dispatches.length :=
    fun ht => (congrArg List.length ht).le
  cases h with
  | withdrawn _ ht => exact hfilter ht
  | missed _ ht => exact hfilter ht
  | accepted _ ht => exact hfilter ht
  | taken _ ht => exact hsame ht
  | counted _ ht => exact hsame ht
  | cancelled _ ht => exact hsame ht
  | completed _ ht => exact hsame ht

/-- **The observer's book** is what the step makes of it. -/
theorem Booked.eq {cs' : List Case} (h : Balanced s cs) (hbooked : Booked s t cs cs') :
    cs.map (next s t) ++ (t.dispatches.drop s.dispatches.length).map ({ dispatch := · }) = cs' := by
  cases hbooked with
  | rolls hrolls =>
      have hsame : cs.map (next s t) = cs.map id :=
        List.map_congr_left fun c hc => h.next_eq hc (h.spared hrolls hc)
      rw [hsame, List.map_id, hrolls.dispatches, List.drop_left]
  | @becomes before after c c' hcs hothers hturned hc =>
      subst hcs
      have hsame : ∀ bs : List Case, (∀ b ∈ bs, b ∈ before ++ after) →
          bs.map (next s t) = bs := by
        intro bs hbs
        refine (List.map_congr_left fun b hb => ?_).trans bs.map_id
        exact h.next_eq (mem_of_others (hbs b hb)) (hothers b (hbs b hb))
      rw [List.drop_eq_nil_of_le hc.length_dispatches, List.map_nil, List.append_nil,
        List.map_append, List.map_cons, hc.next_eq,
        hsame before fun b => List.mem_append_left _, hsame after fun b => List.mem_append_right _]

theorem Booked.balanced {cs' : List Case} (h : Balanced s cs) (hbooked : Booked s t cs cs')
    (hstop : ∀ n, s.isStopped n = true → t.isStopped n = true) : Balanced t cs' := by
  cases hbooked with
  | rolls hrolls => exact h.rolls hrolls hstop
  | becomes hcs hothers hturned hc =>
      subst hcs
      exact h.becomes hothers hturned hstop hc

/-- **What a step makes of the book.** It enters what a tick sends, or one case goes on. -/
theorem booked_step (h : Balanced s cs) (hs : s.Tracks) {a : System.Action} (ha : a.IsListed)
    (hstep : s.step? a = some t) :
    Booked s t cs
      (cs.map (next s t) ++ (t.dispatches.drop s.dispatches.length).map ({ dispatch := · })) := by
  have hexists : ∃ cs', Booked s t cs cs' := by
    cases a with
    | tick time listing =>
        cases hstep
        obtain ⟨ds, hrolls, -⟩ := System.rolls_tick hs time ha
        exact ⟨_, .rolls hrolls⟩
    | release number => exact booked_release h hstep
    | worker n input => exact booked_worker h hstep
    | _ => exact ⟨_, .rolls (System.rolls_of_other hs hstep nofun nofun nofun)⟩
  obtain ⟨cs', hbooked⟩ := hexists
  rwa [hbooked.eq h]

end Case

end Vigil
