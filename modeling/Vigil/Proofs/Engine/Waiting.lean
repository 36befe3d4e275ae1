import Vigil.Proofs.Engine.Lifecycle

/-!
# Evaluations on their way

Between the tick that sends it and the routine that takes it an evaluation is with a
dispatch or in a mailbox, and then the routine works on it until its verdicts are
applied. What is ahead of a routine (`System.ahead`) grows with a tick, and nothing else
puts anything there or changes its order (`System.drains_step`). Verdicts are applied
for what is first in the line of a routine that goes on. A tick sends a routine one
evaluation at most, and one that is due within a base interval
(`System.deals_of_tick`).
-/

namespace Vigil

/-- `w'` has what `w` has before it. -/
structure Worker.Rests (w w' : Worker) : Prop where
  key : w'.key = w.key
  pending : w'.handle.pending = w.handle.pending
  phase : w'.phase = w.phase
  stop : w'.handle.stop = none → w.handle.stop = none

theorem Worker.Rests.refl (w : Worker) : w.Rests w := ⟨rfl, rfl, rfl, id⟩

theorem Worker.rests_dismissed (w : Worker) : w.Rests w.dismissed := by
  refine ⟨w.key_dismissed, ?_, rfl, fun h => absurd h w.stop_dismissed⟩
  unfold dismissed Handle.fire
  cases w.handle.stop <;> rfl

theorem Worker.rests_post (w : Worker) (root : Option StopReason) (version : Int) :
    w.Rests { w with handle := (w.handle.post root version).2 } := by
  refine ⟨w.handle.key_post root version, ?_, rfl, fun h => ?_⟩
  · show (w.handle.post root version).2.pending = _
    unfold Handle.post
    split
    · rfl
    · rfl
  · exact (w.handle.stop_post root version).symm.trans h

/-- An offer is for nothing, or it fills the mailbox. -/
theorem Worker.offer_cases (w : Worker) (root : Option StopReason) (e : Evaluation) :
    w.Rests { w with handle := (w.handle.offer root e).2 } ∨
      w.handle.pending = none ∧ (w.handle.offer root e).2.pending = some e := by
  unfold Handle.offer
  split
  · exact Or.inl (.refl w)
  split
  · exact Or.inl (.refl w)
  · rename_i hbusy
    rw [Bool.or_eq_true, not_or] at hbusy
    exact Or.inr ⟨Option.not_isSome_iff_eq_none.1 hbusy.2, rfl⟩

theorem Handle.isStopped_eq_false_iff {h : Handle} {root : Option StopReason} :
    h.isStopped root = false ↔ h.stop = none ∧ root = none := by
  unfold isStopped reason
  rw [Option.isSome_eq_false_iff, Option.isNone_iff_eq_none, Option.or_eq_none_iff]

/-- A phase leads on to nothing new. -/
theorem Phase.onward?_sublist (p : Phase) : p.onward?.toList.Sublist p.upcoming?.toList := by
  cases p with
  | concluded job vs => exact List.nil_sublist _
  | _ => exact List.Sublist.refl _

theorem Worker.Moves.upcoming_sublist {timely : Prop} {e : Option Evaluation}
    {dated : RuleKey → Moment → Prop} {w w' : Worker} {d d' : Shared}
    (h : Moves timely e dated w d w' d') : w'.phase.upcoming?.toList.Sublist e.toList := by
  cases hup : w'.phase.upcoming? with
  | none => exact List.nil_sublist _
  | some e' =>
      rw [h.upcoming e' hup]

/-- What a routine works on next is what it had taken, or comes from its mailbox. -/
theorem Worker.upcoming_pending_sublist {root : Option StopReason} {input : Input} {w w' : Worker}
    {d d' : Shared} (h : w.step? root input d = some (w', d')) :
    (w'.phase.upcoming?.toList ++ w'.handle.pending.toList).Sublist
      (w.phase.upcoming?.toList ++ w.handle.pending.toList) := by
  by_cases hidle : w.phase = .idle
  · rcases moves_wake hidle (wake?_of_idle hidle h) with hm | ⟨-, e, hpending, hm⟩
    · rw [hm.pending]
      exact (hm.upcoming_sublist.trans (List.nil_sublist _)).append (List.Sublist.refl _)
    · have hempty : w'.handle.pending = none := hm.pending
      rw [hempty, hidle, hpending]
      exact hm.upcoming_sublist.append (List.nil_sublist _)
  · have hm := moves_step hidle h
    rw [hm.pending]
    exact (hm.upcoming_sublist.trans (Phase.onward?_sublist _)).append (List.Sublist.refl _)

namespace System

variable {s t : System} {n : Nat} {w w' : Worker}

/-- The evaluation in the mailbox of routine `n`. -/
def pending? (s : System) (n : Nat) : Option Evaluation :=
  s.registry.entries[n]?.bind (·.handle.pending)

/-- The evaluation that routine `n` took and whose verdicts are still to be applied. -/
def upcoming? (s : System) (n : Nat) : Option Evaluation :=
  s.registry.entries[n]?.bind (·.phase.upcoming?)

/-- The rule of routine `n`. -/
def key? (s : System) (n : Nat) : Option RuleKey := s.registry.entries[n]?.map Worker.key

/-- The evaluations on their way to routine `n`, the one in its mailbox first. -/
def waiting (s : System) (n : Nat) : List Evaluation :=
  (s.pending? n).toList ++ (s.dispatches.filter (·.worker == n)).map (·.evaluation)

/-- The evaluations whose verdicts routine `n` has still to apply. -/
def ahead (s : System) (n : Nat) : List Evaluation := (s.upcoming? n).toList ++ s.waiting n

/-- Routine `n` has not been told to stop. -/
def Goes (s : System) (n : Nat) : Prop :=
  ∃ w, s.registry.entries[n]? = some w ∧ w.handle.isStopped s.root = false

/-- All verdicts that are in are of the time that was asked about. -/
def Timely (s : System) : Prop :=
  ∀ (n : Nat) (w : Worker), s.registry.entries[n]? = some w → w.phase.Timely

/-- What an evaluator finds is of the time that it was asked about. -/
def Action.isTimely (s : System) : Action → Bool
  | .worker n input => s.registry.entries[n]?.all fun w => input.isTimely w.phase
  | _ => true

/-- The evaluation that routine `n` takes from its mailbox on the way from `s` to `t`. -/
def taken? (n : Nat) (s t : System) : Option Evaluation :=
  if (t.pending? n).isNone then s.pending? n else none

theorem pending?_eq (hw : s.registry.entries[n]? = some w) : s.pending? n = w.handle.pending := by
  rw [pending?, hw]
  rfl

theorem upcoming?_eq (hw : s.registry.entries[n]? = some w) :
    s.upcoming? n = w.phase.upcoming? := by
  rw [upcoming?, hw]
  rfl

theorem taken?_of_pending_eq (h : t.pending? n = s.pending? n) : taken? n s t = none := by
  unfold taken?
  rw [h]
  split
  · rename_i hnone
    exact Option.isNone_iff_eq_none.1 hnone
  · rfl

/-- The mailbox and the dispatches of a routine with nothing new. -/
theorem waiting_sublist (hp : t.pending? n = s.pending? n)
    (hd : t.dispatches.Sublist s.dispatches) : (t.waiting n).Sublist (s.waiting n) := by
  unfold waiting
  rw [hp]
  exact (List.Sublist.refl _).append ((hd.filter _).map _)

theorem key?_eq (hw : s.registry.entries[n]? = some w) : s.key? n = some w.key := by
  rw [key?, hw]
  rfl

/-- A routine that goes on is the live one of its rule. -/
theorem Goes.find? (hs : s.registry.Sound) {k : RuleKey} (h : s.Goes n) (hk : s.key? n = some k) :
    s.registry.find? k = some n := by
  obtain ⟨w, hw, hgoes⟩ := h
  rw [key?_eq hw] at hk
  cases hk
  exact (hs.unstopped hw).1 (Handle.isStopped_eq_false_iff.1 hgoes).1

/-! ## Nothing new -/

/-- From `s` to `t` nothing comes up for a routine, and what is dated is what was first
in the line of one that goes on. -/
structure Drains (s t : System) : Prop where
  ahead : ∀ n, (t.ahead n).Sublist (s.ahead n)
  waiting : ∀ n, ((taken? n s t).toList ++ t.waiting n).Sublist (s.waiting n)
  key : ∀ n, t.key? n = s.key? n
  goes : ∀ n, t.Goes n → s.Goes n
  timely : t.Timely
  dispatches : t.dispatches.Sublist s.dispatches
  cache : t.shared.cache.Follows s.shared.cache fun k time =>
    ∃ n e, s.Goes n ∧ e.rule.key = k ∧ e.scheduledAt = time ∧
      (e :: t.ahead n).Sublist (s.ahead n)

/-- The routines of `s` have the same before them in `t`. -/
structure Rests (s t : System) : Prop where
  entries : ∀ n : Nat, Option.Rel Worker.Rests s.registry.entries[n]? t.registry.entries[n]?
  root : t.root = none → s.root = none
  dispatches : t.dispatches.Sublist s.dispatches
  cache : t.shared.cache = s.shared.cache

namespace Rests

/-- The entries of `t` one by one. -/
theorem entry (h : s.Rests t) (hw' : t.registry.entries[n]? = some w') :
    ∃ w, s.registry.entries[n]? = some w ∧ w.Rests w' := by
  have hrel := h.entries n
  rw [hw'] at hrel
  generalize hs : s.registry.entries[n]? = o at hrel
  cases hrel with
  | some hrests => exact ⟨_, rfl, hrests⟩

theorem of_entries_eq (he : t.registry.entries = s.registry.entries)
    (hr : t.root = none → s.root = none) (hd : t.dispatches.Sublist s.dispatches)
    (hc : t.shared.cache = s.shared.cache) : s.Rests t := by
  refine ⟨fun n => ?_, hr, hd, hc⟩
  rw [he]
  cases s.registry.entries[n]? with
  | none => exact .none
  | some w => exact .some (.refl w)

theorem of_modify (n : Nat) {f : Worker → Worker}
    (hg : t.registry = s.registry.modify n f)
    (hf : ∀ w, s.registry.entries[n]? = some w → w.Rests (f w))
    (hr : t.root = s.root) (hd : t.dispatches.Sublist s.dispatches)
    (hc : t.shared.cache = s.shared.cache) : s.Rests t := by
  refine ⟨fun m => ?_, fun h => hr ▸ h, hd, hc⟩
  rw [hg, Registry.getElem?_modify]
  cases hw : s.registry.entries[m]? with
  | none =>
      split
      · exact .none
      · exact .none
  | some w =>
      split
      · rename_i hnm
        exact .some (hf w (hnm ▸ hw))
      · exact .some (.refl w)

theorem pending?_eq (h : s.Rests t) (n : Nat) : t.pending? n = s.pending? n := by
  have hrel := h.entries n
  unfold pending?
  generalize s.registry.entries[n]? = o at hrel
  generalize t.registry.entries[n]? = o' at hrel
  cases hrel with
  | none => rfl
  | some hw => exact hw.pending

theorem upcoming?_eq (h : s.Rests t) (n : Nat) : t.upcoming? n = s.upcoming? n := by
  have hrel := h.entries n
  unfold upcoming?
  generalize s.registry.entries[n]? = o at hrel
  generalize t.registry.entries[n]? = o' at hrel
  cases hrel with
  | none => rfl
  | some hw => exact congrArg Phase.upcoming? hw.phase

theorem key?_eq (h : s.Rests t) (n : Nat) : t.key? n = s.key? n := by
  have hrel := h.entries n
  unfold key?
  generalize s.registry.entries[n]? = o at hrel
  generalize t.registry.entries[n]? = o' at hrel
  cases hrel with
  | none => rfl
  | some hw => exact congrArg some hw.key

theorem goes (h : s.Rests t) (hn : t.Goes n) : s.Goes n := by
  obtain ⟨w', hw', hgoes⟩ := hn
  obtain ⟨w, hw, hrests⟩ := h.entry hw'
  obtain ⟨hstop, hroot⟩ := Handle.isStopped_eq_false_iff.1 hgoes
  exact ⟨w, hw, Handle.isStopped_eq_false_iff.2 ⟨hrests.stop hstop, h.root hroot⟩⟩

theorem timely (h : s.Rests t) (hs : s.Timely) : t.Timely := by
  intro n w' hw'
  obtain ⟨w, hw, hrests⟩ := h.entry hw'
  rw [hrests.phase]
  exact hs n w hw

theorem drains (h : s.Rests t) (hs : s.Timely) : s.Drains t := by
  have hwaiting : ∀ n, (t.waiting n).Sublist (s.waiting n) := fun n =>
    waiting_sublist (h.pending?_eq n) h.dispatches
  refine ⟨fun n => ?_, fun n => ?_, h.key?_eq, fun _ => h.goes, h.timely hs,
    h.dispatches, h.cache ▸ .refl _ _⟩
  · unfold ahead
    rw [h.upcoming?_eq]
    exact (List.Sublist.refl _).append (hwaiting n)
  · rw [taken?_of_pending_eq (h.pending?_eq n)]
    exact hwaiting n

end Rests

theorem rests_delete (hs : s.registry.Sound) (ks : List RuleKey) : s.Rests (s.delete ks) := by
  refine ⟨fun n => ?_, ?_, ?_, ?_⟩
  · rw [entries_delete hs, dismissAll, List.getElem?_map]
    cases s.registry.entries[n]? with
    | none => exact .none
    | some w =>
        refine .some ?_
        dsimp only
        split
        · exact w.rests_dismissed
        · exact .refl w
  · rw [delete_eq]
    exact id
  · rw [delete_eq]
  · rw [delete_eq]

/-! ## Offers -/

/-- The only dispatch of a routine goes to its mailbox. -/
theorem waiting_of_accepted {d : Dispatch} {number : Nat}
    (hd : s.dispatches.find? (·.number == number) = some d)
    (hone : (s.dispatches.map (·.worker)).Nodup) (hempty : s.pending? d.worker = none)
    (hfull : t.pending? d.worker = some d.evaluation)
    (hsent : t.dispatches = s.dispatches.filter (·.number != number)) :
    t.waiting d.worker = s.waiting d.worker := by
  have hnumber : d.number = number := by simpa using List.find?_some hd
  -- the dispatches around it are for other routines
  obtain ⟨before, after, hsplit⟩ := List.append_of_mem (List.mem_of_find?_eq_some hd)
  rw [hsplit, List.map_append, List.map_cons, List.nodup_append, List.nodup_cons] at hone
  obtain ⟨-, ⟨hafter, -⟩, hbefore⟩ := hone
  have hothers : ∀ ds : List Dispatch, d.worker ∉ ds.map (·.worker) →
      ds.filter (·.worker == d.worker) = [] := by
    intro ds hds
    refine List.filter_eq_nil_iff.2 fun d' hd' => ?_
    rw [beq_iff_eq]
    exact fun h => hds (h ▸ List.mem_map_of_mem hd')
  have hb := hothers before fun hmem => hbefore _ hmem _ List.mem_cons_self rfl
  have ha := hothers after hafter
  have hleft : (t.dispatches.filter (·.worker == d.worker)) = [] := by
    rw [hsent, List.filter_comm, hsplit, List.filter_append, hb, List.nil_append,
      List.filter_cons_of_pos (by simp), ha]
    simp [hnumber]
  unfold waiting
  rw [hleft, hfull, hempty, hsplit, List.filter_append, hb, List.nil_append,
    List.filter_cons_of_pos (by simp), ha]
  rfl

/-! ## One routine -/

/-- A step of one routine, or of what is about it. -/
theorem drains_of_others_eq (hs : s.Timely) (hw : s.registry.entries[n]? = some w)
    (hw' : t.registry.entries[n]? = some w')
    (hothers : ∀ m, n ≠ m → t.registry.entries[m]? = s.registry.entries[m]?)
    (hroot : t.root = s.root) (hd : t.dispatches.Sublist s.dispatches)
    (hkey : w'.key = w.key) (hstop : w'.handle.stop = w.handle.stop) (ht : w'.phase.Timely)
    (hahead : (t.ahead n).Sublist (s.ahead n))
    (hwaiting : ((taken? n s t).toList ++ t.waiting n).Sublist (s.waiting n))
    (hc : t.shared.cache.Follows s.shared.cache fun k time =>
      ∃ m e, s.Goes m ∧ e.rule.key = k ∧ e.scheduledAt = time ∧
        (e :: t.ahead m).Sublist (s.ahead m)) : s.Drains t := by
  have hpending : ∀ m, n ≠ m → t.pending? m = s.pending? m := by
    intro m hm
    rw [pending?, hothers m hm]
    rfl
  have hrest : ∀ m, n ≠ m → (t.waiting m).Sublist (s.waiting m) := fun m hm =>
    waiting_sublist (hpending m hm) hd
  constructor
  · intro m
    by_cases hm : n = m
    · exact hm ▸ hahead
    · unfold ahead upcoming?
      rw [hothers m hm]
      exact (List.Sublist.refl _).append (hrest m hm)
  · intro m
    by_cases hm : n = m
    · exact hm ▸ hwaiting
    · rw [taken?_of_pending_eq (hpending m hm)]
      exact hrest m hm
  · intro m
    by_cases hm : n = m
    · rw [← hm, key?_eq hw, key?_eq hw', hkey]
    · rw [key?, hothers m hm]
      rfl
  · rintro m ⟨u, hu, hgoes⟩
    by_cases hm : n = m
    · subst hm
      obtain rfl := Option.some.inj (hw'.symm.trans hu)
      refine ⟨w, hw, ?_⟩
      rw [Handle.isStopped_eq_false_iff] at hgoes ⊢
      exact ⟨hstop ▸ hgoes.1, hroot ▸ hgoes.2⟩
    · exact ⟨u, hothers m hm ▸ hu, hroot ▸ hgoes⟩
  · intro m u hu
    by_cases hm : n = m
    · subst hm
      obtain rfl := Option.some.inj (hw'.symm.trans hu)
      exact ht
    · exact hs m u (hothers m hm ▸ hu)
  · exact hd
  · exact hc

theorem drains_release (hs : s.Timely) (hone : (s.dispatches.map (·.worker)).Nodup) {number : Nat}
    (h : s.release? number = some t) : s.Drains t := by
  have hsent : (s.dispatches.filter (·.number != number)).Sublist s.dispatches :=
    List.filter_sublist
  obtain ⟨d, w, hd, hw, rfl | ⟨-, -, metrics, ht⟩⟩ := release_cases h
  · exact Rests.drains (.of_entries_eq rfl id hsent rfl) hs
  rcases w.offer_cases s.root d.evaluation with hrests | ⟨hempty, hfull⟩
  · subst ht
    refine Rests.drains (.of_modify d.worker rfl (fun u hu => ?_) rfl hsent rfl) hs
    obtain rfl := Option.some.inj (hw.symm.trans hu)
    exact hrests
  have hw' : t.registry.entries[d.worker]? =
      some { w with handle := (w.handle.offer s.root d.evaluation).2 } := by
    subst ht
    rw [Registry.getElem?_modify, if_pos rfl, hw]
    rfl
  have hpending : t.pending? d.worker = some d.evaluation := (pending?_eq hw').trans hfull
  have hwaiting : t.waiting d.worker = s.waiting d.worker := by
    refine waiting_of_accepted hd hone ((pending?_eq hw).trans hempty) hpending ?_
    rw [ht]
  have htaken : taken? d.worker s t = none := by
    rw [taken?, hpending]
    rfl
  refine drains_of_others_eq hs hw hw' ?_ ?_ ?_ (w.handle.key_offer _ _) (w.handle.stop_offer _ _)
    (hs _ w hw) ?_ ?_ ?_
  · intro m hm
    subst ht
    rw [Registry.getElem?_modify, if_neg hm]
  · rw [ht]
  · rw [ht]
    exact hsent
  · unfold ahead
    rw [hwaiting, upcoming?_eq hw, upcoming?_eq hw']
  · rw [htaken, hwaiting]
    exact List.Sublist.refl _
  · rw [ht]
    exact .refl _ _

theorem ahead_eq (hw : s.registry.entries[n]? = some w) :
    s.ahead n = (w.phase.upcoming?.toList ++ w.handle.pending.toList) ++
      (s.dispatches.filter (·.worker == n)).map (·.evaluation) := by
  unfold ahead waiting
  rw [upcoming?_eq hw, pending?_eq hw, List.append_assoc]

/-- A step of routine `n` that adds nothing to what it works on and has in its mailbox. -/
theorem drains_of_replaced (hs : s.Timely) (hw : s.registry.entries[n]? = some w) {d : Shared}
    (ht : t = { s with shared := d, registry := s.registry.modify n fun _ => w' })
    (hkey : w'.key = w.key) (hstop : w'.handle.stop = w.handle.stop)
    (htimely : w'.phase.Timely)
    (hahead : (w'.phase.upcoming?.toList ++ w'.handle.pending.toList).Sublist
      (w.phase.upcoming?.toList ++ w.handle.pending.toList))
    (hpending : w'.handle.pending = w.handle.pending ∨ w'.handle.pending = none)
    (hc : d.cache.Follows s.shared.cache fun k time =>
      ∃ m e, s.Goes m ∧ e.rule.key = k ∧ e.scheduledAt = time ∧
        (e :: t.ahead m).Sublist (s.ahead m)) : s.Drains t := by
  have hw' : t.registry.entries[n]? = some w' := by
    rw [ht, Registry.getElem?_modify, if_pos rfl, hw]
    rfl
  have hothers : ∀ m, n ≠ m → t.registry.entries[m]? = s.registry.entries[m]? := by
    intro m hm
    rw [ht, Registry.getElem?_modify, if_neg hm]
  have hsent : t.dispatches = s.dispatches := by rw [ht]
  have hcache : t.shared.cache = d.cache := by rw [ht]
  refine drains_of_others_eq hs hw hw' hothers (by rw [ht]) (hsent ▸ List.Sublist.refl _) hkey
    hstop htimely ?_ ?_ (hcache.symm ▸ hc)
  · rw [ahead_eq hw, ahead_eq hw', hsent]
    exact hahead.append (List.Sublist.refl _)
  · have hp := pending?_eq hw
    have hp' := pending?_eq hw'
    rcases hpending with hsame | hnone
    · have hkept : t.pending? n = s.pending? n := by rw [hp, hp', hsame]
      rw [taken?_of_pending_eq hkept]
      exact waiting_sublist hkept (hsent ▸ List.Sublist.refl _)
    · unfold taken? waiting
      rw [hp', hnone, hsent]
      exact List.Sublist.refl _

/-- A routine takes what is in its mailbox and applies the verdicts on what it took. -/
theorem drains_worker (hs : s.Timely) {input : Input}
    (hinput : Action.isTimely s (.worker n input) = true)
    (h : s.stepWorker? n input = some t) : s.Drains t := by
  obtain ⟨w, hw, h⟩ := Option.bind_eq_some_iff.1 h
  obtain ⟨⟨w', shared⟩, hstep, h⟩ := Option.bind_eq_some_iff.1 h
  have ht : t = { s with shared, registry := s.registry.modify n fun _ => w' } :=
    (Option.some.inj h).symm
  obtain ⟨⟨hkey, hstop⟩, -⟩ := Worker.frame_of_step hstep
  rw [Action.isTimely, hw, Option.all_some] at hinput
  have hahead := Worker.upcoming_pending_sublist hstep
  by_cases hidle : w.phase = .idle
  · rcases Worker.moves_wake hidle (Worker.wake?_of_idle hidle hstep) with hm | ⟨-, e, -, hm⟩
    · exact drains_of_replaced hs hw ht hkey hstop (hm.timely trivial) hahead (Or.inl hm.pending)
        hm.shared.of_undated.cache
    · exact drains_of_replaced hs hw ht hkey hstop (hm.timely trivial) hahead (Or.inr hm.pending)
        hm.shared.of_undated.cache
  · have hm := Worker.moves_step hidle hstep
    refine drains_of_replaced hs hw ht hkey hstop (hm.timely hinput) hahead (Or.inl hm.pending) ?_
    refine hm.shared.cache.mono fun k time hdates => ?_
    obtain ⟨hgoes, job, vs, hphase, hk, v, hv, htime⟩ := hdates
    have htimely := hs n w hw
    rw [hphase] at htimely
    refine ⟨n, job.evaluation, ⟨w, hw, hgoes⟩, hk.symm, (htime.trans (htimely v hv)).symm, ?_⟩
    have hw' : t.registry.entries[n]? = some w' := by
      rw [ht, Registry.getElem?_modify, if_pos rfl, hw]
      rfl
    have hdone : w'.phase.upcoming? = none := by
      have hlast := hm.upcoming_sublist
      rw [hphase] at hlast
      exact Option.toList_eq_nil_iff.1 (List.sublist_nil.1 hlast)
    have hsent : t.dispatches = s.dispatches := by rw [ht]
    rw [ahead_eq hw, ahead_eq hw', hdone, hphase, hm.pending, hsent]
    exact List.Sublist.refl _

/-- Ticks, offers and the steps of a routine apart, every action leaves what is before the
routines alone. -/
theorem rests_step (hsound : s.registry.Sound) {a : Action} (h : s.step? a = some t)
    (htick : ∀ time listing, a ≠ .tick time listing) (hrelease : ∀ number, a ≠ .release number)
    (hworker : ∀ n input, a ≠ .worker n input) : s.Rests t := by
  cases a with
  | setClock clock =>
      cases h
      exact .of_entries_eq rfl id (List.Sublist.refl _) rfl
  | elapse millis =>
      cases h
      exact .of_entries_eq rfl id (List.Sublist.refl _) rfl
  | tick time listing => exact absurd rfl (htick time listing)
  | delete ks =>
      cases h
      exact rests_delete hsound ks
  | update k version =>
      cases h
      unfold update
      split
      · refine .of_modify _ rfl (fun w _ => ?_) rfl (List.Sublist.refl _) rfl
        exact w.rests_post s.root version
      · exact .of_entries_eq rfl id (List.Sublist.refl _) rfl
  | stopAll =>
      cases h
      refine .of_entries_eq rfl (fun hroot => ?_) (List.Sublist.refl _) rfl
      exact (Option.or_eq_none_iff.1 hroot).1
  | release number => exact absurd rfl (hrelease number)
  | worker n input => exact absurd rfl (hworker n input)

/-- **Only a tick brings something new.** -/
theorem drains_step (hs : s.Timely) (hsound : s.registry.Sound)
    (hone : (s.dispatches.map (·.worker)).Nodup) {a : Action}
    (ha : a.isTimely s = true) (hnew : ∀ time listing, a ≠ .tick time listing)
    (h : s.step? a = some t) : s.Drains t := by
  cases a with
  | release number => exact drains_release hs hone h
  | worker n input => exact drains_worker hs ha h
  | _ => exact (rests_step hsound h hnew nofun nofun).drains hs

/-! ## Ticks -/

/-- The evaluations that `ds` sends to routine `n`. -/
def sentTo (ds : List Dispatch) (n : Nat) : List Evaluation :=
  (ds.filter (·.worker == n)).map (·.evaluation)

/-- From `s` to `t` the dispatches `ds` are new, and nothing else is before any routine. -/
structure Deals (s : System) (time : Moment) (ds : List Dispatch) (t : System) : Prop where
  dispatches : t.dispatches = s.dispatches ++ ds
  workers : (ds.map (·.worker)).Nodup
  sent : ∀ d ∈ ds, d.evaluation.scheduledAt = time ∧ t.key? d.worker = some d.evaluation.rule.key ∧
    d.dueAt ≤ s.shared.uptime + 1000 * s.settings.tickSeconds
  pending : ∀ n, t.pending? n = s.pending? n
  upcoming : ∀ n, t.upcoming? n = s.upcoming? n
  key : ∀ n k, s.key? n = some k → t.key? n = some k
  goes : ∀ n, t.Goes n → s.Goes n ∨ s.key? n = none
  timely : s.Timely → t.Timely
  cache : t.shared.cache = s.shared.cache

namespace Deals

variable {time : Moment} {ds : List Dispatch}

theorem waiting_eq (h : s.Deals time ds t) (n : Nat) :
    t.waiting n = s.waiting n ++ sentTo ds n := by
  unfold waiting sentTo
  rw [h.pending, h.dispatches, List.filter_append, List.map_append, List.append_assoc]

theorem ahead_eq (h : s.Deals time ds t) (n : Nat) : t.ahead n = s.ahead n ++ sentTo ds n := by
  unfold ahead
  rw [h.upcoming, h.waiting_eq, List.append_assoc]

theorem scheduledAt_of_mem (h : s.Deals time ds t) {e : Evaluation} (he : e ∈ sentTo ds n) :
    e.scheduledAt = time ∧ t.key? n = some e.rule.key := by
  obtain ⟨d, hd, rfl⟩ := List.mem_map.1 he
  obtain ⟨hmem, hworker⟩ := List.mem_filter.1 hd
  obtain ⟨htime, hkey, -⟩ := h.sent d hmem
  rw [beq_iff_eq] at hworker
  exact ⟨htime, hworker ▸ hkey⟩

/-- A routine gets one evaluation at most. -/
theorem pairwise_sentTo (h : s.Deals time ds t) (n : Nat) (r : Evaluation → Evaluation → Prop) :
    (sentTo ds n).Pairwise r := by
  have hone := (List.pairwise_map.1 h.workers).filter (·.worker == n)
  refine List.pairwise_map.2 (hone.imp_of_mem fun {d d'} hd hd' hne => ?_)
  have hworker := (List.mem_filter.1 hd).2
  have hworker' := (List.mem_filter.1 hd').2
  rw [beq_iff_eq] at hworker hworker'
  exact absurd (hworker.trans hworker'.symm) hne

end Deals

theorem nodup_workers_of_sends (hsound : s.registry.Sound) {ready : List (Evaluation × Span)}
    {ds : List Dispatch} (hds : s.Sends ready ds)
    (hready : (ready.map (·.1.rule.key)).Pairwise fun a b => compare a b = .lt) :
    (ds.map (·.worker)).Nodup := by
  have hkeys : ds.map (·.evaluation.rule.key) = ready.map (·.1.rule.key) := by
    have hmap := congrArg (List.map fun e : Evaluation => e.rule.key) hds.evaluations
    rw [List.map_map, List.map_map] at hmap
    exact hmap
  rw [← hkeys, List.pairwise_map] at hready
  refine List.pairwise_map.2 (hready.imp_of_mem fun {d d'} hd hd' hlt hsame => ?_)
  obtain ⟨w, hw, hkey⟩ := hsound.live (hds.live d hd)
  obtain ⟨w', hw', hkey'⟩ := hsound.live (hds.live d' hd')
  rw [← hsame] at hw'
  obtain rfl := Option.some.inj (hw.symm.trans hw')
  rw [← hkey, ← hkey'] at hlt
  simp at hlt

/-- **A tick sends each routine one evaluation at most.** -/
theorem deals_of_tick (hsound : s.registry.Sound) (time : Moment) (listing : Option RuleSet)
    {rules : RuleSet} (hrules : listing.getD s.rules = rules) (hk : rules.Keyed) :
    ∃ ds, s.Deals time ds (s.tick time listing).2 := by
  have hks := rules.rules.nodup_keys
  have hsound' := hsound.ensure rules.rules.keys
  obtain ⟨ds, hds, htick⟩ := tick_eq hrules hk time rfl
  let u : System := { s with
    shared := { s.shared with metrics := s.shared.metrics.recordRules (rules.all.map (·.uid)) }
    rules := rules
    registry := s.registry.ensure rules.rules.keys
    dispatches := s.dispatches ++ ds
    dispatched := s.dispatched + ds.length }
  have hrests : u.Rests (s.tick time listing).2 := htick ▸ rests_delete hsound' (s.gone rules)
  refine ⟨ds, ?_⟩
  constructor
  · rw [htick, delete_eq]
  · exact nodup_workers_of_sends hsound' hds (sorted_due hk s.settings time)
  · intro d hd
    have hevaluation : d.evaluation ∈ ds.map (·.evaluation) := List.mem_map_of_mem hd
    have htime : d.dueAt ∈ ds.map (·.dueAt) := List.mem_map_of_mem hd
    rw [hds.evaluations] at hevaluation
    rw [hds.times] at htime
    obtain ⟨e, he, hsame⟩ := List.mem_map.1 hevaluation
    obtain ⟨e', he', hdue⟩ := List.mem_map.1 htime
    obtain ⟨w, hw, hkey⟩ := hsound'.live (hds.live d hd)
    refine ⟨hsame ▸ scheduledAt_of_mem_due he, ?_, ?_⟩
    · rw [hrests.key?_eq, key?_eq hw, hkey]
    · rw [← hdue]
      exact Nat.add_le_add_left (roundUp_le_of_mem_due he') _
  · exact fun n => (hrests.pending?_eq n).trans (Registry.bind_ensure hks _ (fun _ => rfl) n)
  · exact fun n => (hrests.upcoming?_eq n).trans (Registry.bind_ensure hks _ (fun _ => rfl) n)
  · intro n k hkey
    obtain ⟨w, hw, rfl⟩ := Option.map_eq_some_iff.1 hkey
    rw [hrests.key?_eq]
    exact key?_eq (Registry.getElem?_ensure hks hw)
  · intro n hgoes
    obtain ⟨w, hw, hstopped⟩ := hrests.goes hgoes
    rcases Registry.entry_ensure hks hw with hold | ⟨hnone, -⟩
    · exact Or.inl ⟨w, hold, hstopped⟩
    · right
      rw [key?, hnone]
      rfl
  · intro hs
    refine hrests.timely fun n w hw => ?_
    rcases Registry.entry_ensure hks hw with hold | ⟨-, k, rfl⟩
    · exact hs n w hold
    · trivial
  · exact hrests.cache

end System

end Vigil
