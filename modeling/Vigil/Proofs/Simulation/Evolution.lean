import Vigil.Proofs.Engine.Lifecycle
import Vigil.Proofs.Simulation.TickLoop

/-!
# Worlds evolve

Whatever a world does on its own, with its tasks run one by one and time passing in
between, is made of moves of a given tick loop and of changes that leave its record alone
(`World.leads_settle`, `World.leads_sleepUntil`). What is proved of the ticks of a loop
along `World.Evolves` is so proved of the runs of a world.
-/

namespace Vigil

theorem PromptStore.scheduler_flush (p : PromptStore) (is : List Instance) (saved : Nat)
    (d : Shared) : (p.flush is saved d).2.scheduler = d.scheduler := by
  induction is generalizing saved d with
  | nil => rfl
  | cons i is ih =>
      refine (ih _ _).trans ?_
      show (d.saveRow i (p.saves i)).scheduler = _
      unfold Shared.saveRow
      split
      · rfl
      · rfl

namespace Simulation.World

variable {n : Nat} {w u v : World} {ts us : List Moment}

/-! ## Changes that spare a loop -/

theorem spares_of_eq (hs : v.system.settings = w.system.settings)
    (hl : v.tickLoops = w.tickLoops) : Spares n w v :=
  ⟨hs, fun l h => ⟨l.stopRequested, hl ▸ h⟩⟩

theorem Spares.refl (n : Nat) (w : World) : Spares n w w := spares_of_eq rfl rfl

theorem Spares.trans (h : Spares n w u) (h' : Spares n u v) : Spares n w v := by
  refine ⟨h'.settings.trans h.settings, fun l hl => ?_⟩
  obtain ⟨stop, hu⟩ := h.loop l hl
  obtain ⟨stop', hv⟩ := h'.loop { l with stopRequested := stop } hu
  exact ⟨stop', hv⟩

theorem settings_act (w : World) (a : System.Action) :
    (w.act a).system.settings = w.system.settings := by
  unfold act
  cases h : w.system.step? a with
  | none => rfl
  | some s => exact System.settings_step h

theorem spares_act (n : Nat) (w : World) (a : System.Action) : Spares n w (w.act a) :=
  spares_of_eq (w.settings_act a) rfl

theorem spares_moveWorker (n : Nat) (w : World) (m : Nat) : Spares n w (w.moveWorker m).2 := by
  have hfeed : ∀ {v : World} {input : Input}, v.system = w.system → v.tickLoops = w.tickLoops →
      Spares n w (v.feed m input) := by
    intro v input hs hl
    have hsettings : v.system.settings = w.system.settings := by rw [hs]
    exact spares_of_eq ((v.settings_act _).trans hsettings) hl
  unfold moveWorker
  split
  · exact .refl n w
  · dsimp only
    split
    · split
      · exact hfeed rfl rfl
      · exact .refl n w
    · exact hfeed rfl rfl
    · exact hfeed rfl rfl
    · exact hfeed rfl rfl
    · exact hfeed rfl rfl
    · refine hfeed ?_ ?_
      · split
        · rfl
        · rfl
      · split
        · rfl
        · rfl
    · split
      · exact hfeed rfl rfl
      · split
        · split
          · exact hfeed rfl rfl
          · exact hfeed rfl rfl
        · exact .refl n w
    · exact hfeed rfl rfl
    · exact hfeed rfl rfl
    · exact .refl n w
    · exact .refl n w

theorem spares_runWorker (n m fuel : Nat) (w : World) : Spares n w (runWorker m fuel w) := by
  induction fuel generalizing w with
  | zero => exact .refl n w
  | succ fuel ih =>
      have hmove := w.spares_moveWorker n m
      unfold runWorker
      split
      · rename_i v h
        rw [h] at hmove
        exact hmove.trans (ih v)
      · rename_i v h
        rw [h] at hmove
        exact hmove

theorem Spares.persist (h : Spares n w v) : Spares n w v.persist.2 :=
  h.trans (spares_of_eq (v.outages.promptStore.scheduler_flush _ 0 v.system.shared) rfl)

theorem spares_ite_snd {p : Prop} [Decidable p] {a b : UpkeepLoop} (hu : Spares n w u)
    (hv : Spares n w v) : Spares n w (if p then (a, u) else (b, v)).2 := by
  split
  · exact hu
  · exact hv

theorem spares_runUpkeepLoop (n : Nat) (w : World) (m : Nat) :
    Spares n w (w.runUpkeepLoop m) := by
  have htimer : ∀ {v t task}, Spares n w v → Spares n w (v.setTimer t task) := fun h =>
    ⟨h.settings, h.loop⟩
  have hgauges : Spares n w (w.mapShared Shared.recordGauges) := spares_of_eq rfl rfl
  have hset : ∀ {v us}, Spares n w v → Spares n w { v with upkeepLoops := us } := fun h =>
    ⟨h.settings, h.loop⟩
  unfold runUpkeepLoop
  split
  · exact .refl n w
  split
  · exact .refl n w
  dsimp only
  -- the gauges, the flush and the last flush are due or not
  refine hset (spares_ite_snd (Spares.persist ?_) ?_)
  · refine spares_ite_snd (htimer (Spares.persist ?_)) ?_
    · exact spares_ite_snd (htimer hgauges) (.refl n w)
    · exact spares_ite_snd (htimer hgauges) (.refl n w)
  · refine spares_ite_snd (htimer (Spares.persist ?_)) ?_
    · exact spares_ite_snd (htimer hgauges) (.refl n w)
    · exact spares_ite_snd (htimer hgauges) (.refl n w)

/-- A loop leaves the others alone. -/
theorem spares_moveTickLoop {m : Nat} (hm : m ≠ n) (w : World) :
    Spares n w (w.moveTickLoop m).2 := by
  refine ⟨(w.processed_moveTickLoop m).settings, fun l hl => ⟨l.stopRequested, ?_⟩⟩
  cases hother : w.tickLoops[m]? with
  | none =>
      unfold moveTickLoop
      rw [hother]
      exact hl
  | some l' =>
      by_cases ho : l'.outcome = none
      · obtain ⟨l'', hset, -⟩ := moveTickLoop_spec hother ho rfl
        rw [hset, List.getElem?_set_ne hm]
        exact hl
      · rw [(moveTickLoop_of_ended hother (Option.isSome_iff_ne_none.2 ho)).1]
        exact hl

/-! ## Runs -/

theorem Evolves.trans (h : Evolves n w ts u) (h' : Evolves n u us v) :
    Evolves n w (ts ++ us) v := by
  induction h' with
  | refl =>
      rw [List.append_nil]
      exact h
  | move _ ih =>
      rw [← List.append_assoc]
      exact ih.move
  | spare _ hv ih => exact ih.spare hv

/-- Loop `n` processes some ticks on the way from `w` to `u`. -/
def Leads (n : Nat) (w u : World) : Prop := ∃ ts, Evolves n w ts u

theorem Leads.refl (n : Nat) (w : World) : Leads n w w := ⟨[], .refl⟩

theorem Leads.trans (h : Leads n w u) (h' : Leads n u v) : Leads n w v := by
  obtain ⟨ts, hu⟩ := h
  obtain ⟨us, hv⟩ := h'
  exact ⟨ts ++ us, hu.trans hv⟩

theorem Spares.leads (h : Spares n w u) : Leads n w u := ⟨[], .spare .refl h⟩

theorem leads_moveTickLoop (n : Nat) (w : World) (m : Nat) : Leads n w (w.moveTickLoop m).2 := by
  by_cases hm : m = n
  · subst hm
    exact ⟨_, .move .refl⟩
  · exact (spares_moveTickLoop hm w).leads

theorem leads_runTickLoop (n m fuel : Nat) (w : World) : Leads n w (runTickLoop m fuel w) := by
  induction fuel generalizing w with
  | zero => exact .refl n w
  | succ fuel ih =>
      have hmove := leads_moveTickLoop n w m
      unfold runTickLoop
      split
      · rename_i v h
        rw [h] at hmove
        exact hmove.trans (ih v)
      · rename_i v h
        rw [h] at hmove
        exact hmove

theorem leads_run (n : Nat) (w : World) (task : Task) : Leads n w (w.run task) := by
  cases task with
  | tickLoop m => exact leads_runTickLoop n m patience w
  | upkeepLoop m => exact (spares_runUpkeepLoop n w m).leads
  | worker m => exact (spares_runWorker n m patience w).leads
  | dispatch number => exact (spares_act n w (.release number)).leads

theorem leads_drain (n fuel : Nat) (w : World) : Leads n w (drain fuel w) := by
  induction fuel generalizing w with
  | zero => exact .refl n w
  | succ fuel ih =>
      unfold drain
      split
      · exact .refl n w
      · rename_i task rest _
        have htaken : Spares n w { w with line := rest } := spares_of_eq rfl rfl
        have hlined : ∀ v : World, Spares n v v.lineUp := fun v => spares_of_eq rfl rfl
        exact (htaken.leads.trans (leads_run n _ task)).trans ((hlined _).leads.trans (ih _))

/-- **What runs without time passing.** -/
theorem leads_settle (n : Nat) (w : World) : Leads n w w.settle := by
  have hlined : Spares n w w.lineUp := spares_of_eq rfl rfl
  unfold settle
  exact hlined.leads.trans (leads_drain n patience w.lineUp)

theorem spares_moveTo (n : Nat) (w : World) (t : Nat) : Spares n w (w.moveTo t) :=
  (spares_act n w (.elapse (t - w.now))).trans (spares_of_eq rfl rfl)

theorem leads_passTo (n t fuel : Nat) (w : World) : Leads n w (passTo t fuel w) := by
  induction fuel generalizing w with
  | zero => exact (spares_moveTo n w t).leads
  | succ fuel ih =>
      unfold passTo
      split
      · rename_i due _
        split
        · exact ((spares_moveTo n w due).leads.trans (leads_settle n _)).trans (ih _)
        · exact (spares_moveTo n w t).leads
      · exact (spares_moveTo n w t).leads

/-- **What happens while time passes.** -/
theorem leads_sleepUntil (n : Nat) (w : World) (t : Nat) : Leads n w (w.sleepUntil t) :=
  leads_passTo n t (t - w.now) w

end Simulation.World

end Vigil
