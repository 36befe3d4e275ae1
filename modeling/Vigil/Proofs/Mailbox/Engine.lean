import Vigil.Engine.Scheduler
import Vigil.Proofs.Mailbox.Protocol

/-!
# The desks of an engine

The steps of an engine are whole calls to the handles of its routines, whole looks
of the routines, and their steps in between. Each of them is a run at the desk of
the routine it is about, so every routine of an engine is where some run at a desk
leads to, with all calls answered (`System.atDesks_of_run`). What the protocol says
of desks therefore holds in the engine, and there a waiting evaluation always has
its wake-up (`System.permits_of_run`).
-/

namespace Vigil

namespace Desk

/-- Some run leads here. -/
def Reachable (s : Desk) : Prop := ∃ k ms, (new k).run? ms = some s

theorem run?_append (s : Desk) (ms ms' : List Move) :
    s.run? (ms ++ ms') = (s.run? ms).bind (·.run? ms') :=
  List.foldlM_append

variable {s t : Desk}

theorem Reachable.run (hs : s.Reachable) {ms : List Move} (h : s.run? ms = some t) :
    t.Reachable := by
  obtain ⟨k, past, hpast⟩ := hs
  exact ⟨k, past ++ ms, by rw [run?_append, hpast, Option.bind_some, h]⟩

theorem Reachable.step (hs : s.Reachable) {m : Move} (h : s.step? m = some t) : t.Reachable :=
  hs.run (run?_cons h [])

end Desk

/-- The routine of `w` is where a run at a desk leads to, between two looks and with
every call answered. -/
def AtDesk (root : Option StopReason) (w : Worker) : Prop :=
  ∃ s : Desk, s.Reachable ∧ s.worker = w ∧ s.root = root ∧ s.watch = .asleep ∧
    ∀ c ∈ s.calls, c.isAnswered = true

namespace AtDesk

variable {root : Option StopReason} {w : Worker}

theorem new (root : Option StopReason) (k : RuleKey) : AtDesk root (.new k) := by
  have hnew : (Desk.new k).Reachable := ⟨k, [], rfl⟩
  cases root with
  | none => exact ⟨_, hnew, rfl, rfl, rfl, List.forall_mem_nil _⟩
  | some r =>
      have hfired : (Desk.new k).step? (.fireRoot r) = some { Desk.new k with root := some r } :=
        rfl
      exact ⟨_, hnew.step hfired, rfl, rfl, rfl, List.forall_mem_nil _⟩

theorem fire (h : AtDesk root w) (r : StopReason) :
    AtDesk root { w with handle := (w.handle.fire r).2 } := by
  obtain ⟨s, hs, rfl, rfl, hasleep, hcalls⟩ := h
  exact ⟨_, hs.step (m := .fire r) rfl, rfl, rfl, hasleep, hcalls⟩

theorem fireRoot (h : AtDesk root w) (r : StopReason) : AtDesk (root.or (some r)) w := by
  obtain ⟨s, hs, rfl, rfl, hasleep, hcalls⟩ := h
  exact ⟨_, hs.step (m := .fireRoot r) rfl, rfl, rfl, hasleep, hcalls⟩

theorem answered_append {calls : List Call} {c : Call}
    (hcalls : ∀ c ∈ calls, c.isAnswered = true) (hc : c.isAnswered = true) :
    ∀ c' ∈ calls ++ [c], c'.isAnswered = true := by
  intro c' hc'
  rcases List.mem_append.1 hc' with h | h
  · exact hcalls c' h
  · rw [List.mem_singleton.1 h, hc]

theorem post (h : AtDesk root w) (version : Int) :
    AtDesk root { w with handle := (w.handle.post root version).2 } := by
  obtain ⟨s, hs, rfl, rfl, hasleep, hcalls⟩ := h
  obtain ⟨k, past, hrun⟩ := s.exists_steps_post version
  exact ⟨_, hs.run hrun, rfl, rfl, hasleep, answered_append hcalls rfl⟩

theorem offer (h : AtDesk root w) (e : Evaluation) :
    AtDesk root { w with handle := (w.handle.offer root e).2 } := by
  obtain ⟨s, hs, rfl, rfl, hasleep, hcalls⟩ := h
  obtain ⟨k, past, hrun⟩ := s.exists_steps_offer e
  exact ⟨_, hs.run hrun, rfl, rfl, hasleep, answered_append hcalls rfl⟩

theorem step (h : AtDesk root w) {w' : Worker} {input : Input} {d d' : Shared}
    (hstep : w.step? root input d = some (w', d')) : AtDesk root w' := by
  obtain ⟨s, hs, rfl, rfl, hasleep, hcalls⟩ := h
  by_cases hidle : s.worker.phase = .idle
  · unfold Worker.step? at hstep
    rw [hidle] at hstep
    cases input with
    | wake =>
        obtain ⟨past, k, hrun⟩ := Desk.looks_of_wake hidle hasleep hstep
        exact ⟨_, hs.run hrun, rfl, rfl, hasleep, hcalls⟩
    | _ => exact absurd hstep nofun
  · have hmove : s.step? (.routine input d) = some (s.advance w') := by
      show s.routine? input d = some (s.advance w')
      rw [Desk.routine?_of_ne_idle hidle, hstep]
      rfl
    exact ⟨_, hs.step hmove, rfl, rfl, rfl, hcalls⟩

theorem not_calling {calls : List Call} {n : Nat} {c : Call}
    (hcalls : ∀ c ∈ calls, c.isAnswered = true) (hc : c.isCalling = true) :
    calls[n]? ≠ some c := by
  intro h
  have hanswered := hcalls c (List.mem_of_getElem? h)
  cases c with
  | callEvaluation => cases hanswered
  | callUpdate => cases hanswered
  | _ => cases hc

/-- With every call answered, what a mailbox holds has its wake-up. -/
theorem permits (h : AtDesk root w) :
    (w.handle.pending.isSome = true → w.handle.evaluationPermit = true) ∧
      (w.handle.update.isSome = true → w.handle.updatePermit = true) := by
  obtain ⟨s, ⟨k, ms, hrun⟩, rfl, rfl, hasleep, hcalls⟩ := h
  have hs := Desk.inv_run k hrun
  constructor
  · intro hpending
    rcases hs.evaluationCalled hpending with hpermit | hwatch | ⟨n, e, -, hcall⟩
    · exact hpermit
    · cases hasleep.symm.trans hwatch
    · exact absurd hcall (not_calling hcalls rfl)
  · intro hupdate
    rcases hs.updateCalled with hpermit | hwatch | hunread
    · exact hpermit
    · cases hasleep.symm.trans hwatch
    · have hempty : s.unread = [] := List.eq_nil_iff_forall_not_mem.2 fun c hc =>
        not_calling hcalls rfl (hunread c hc)
      have hnone : s.handle.update = none := by
        rw [hs.update_eq, hempty]
        rfl
      have hsome : s.handle.update.isSome = true := hupdate
      rw [hnone] at hsome
      cases hsome

/-- Only a stop makes the routine leave. -/
theorem leaving (h : AtDesk root w) (hw : w.phase.isLeaving = true) :
    w.handle.isStopped root = true := by
  obtain ⟨s, ⟨k, ms, hrun⟩, rfl, rfl, -⟩ := h
  exact (Desk.inv_run k hrun).leaving hw

theorem awaiting (h : AtDesk root w) : w.phase.isAwaiting = true := by
  obtain ⟨s, ⟨k, ms, hrun⟩, rfl, rfl, -⟩ := h
  exact (Desk.inv_run k hrun).awaiting

end AtDesk

/-! ## Runs of an engine -/

theorem mem_modify {l : List α} {n : Nat} {f : α → α} {b : α} (h : b ∈ l.modify n f) :
    b ∈ l ∨ ∃ a, l[n]? = some a ∧ b = f a := by
  obtain ⟨m, hm⟩ := List.mem_iff_getElem?.1 h
  rw [List.getElem?_modify] at hm
  obtain ⟨a, ha, hb⟩ := Option.map_eq_some_iff.1 hm
  by_cases hnm : n = m
  · subst hnm
    rw [if_pos rfl] at hb
    exact Or.inr ⟨a, ha, hb.symm⟩
  · rw [if_neg hnm] at hb
    exact Or.inl (hb ▸ List.mem_of_getElem? ha)

namespace System

/-- Every routine is where a run at a desk leads to. -/
def AtDesks (s : System) : Prop := ∀ w ∈ s.registry.entries, AtDesk s.root w

def run? (s : System) (as : List Action) : Option System := as.foldlM step? s

theorem run?_snoc (s : System) (as : List Action) (a : Action) :
    s.run? (as ++ [a]) = (s.run? as).bind (·.step? a) :=
  Desk.foldlM_concat step? s as a

variable {s t : System}

theorem AtDesks.modify (hs : AtDesks s) (n : Nat) {f : Worker → Worker}
    (hf : ∀ w, s.registry.entries[n]? = some w → AtDesk s.root (f w)) :
    AtDesks { s with registry := s.registry.modify n f } := by
  intro w hw
  rcases mem_modify hw with hw | ⟨u, hu, rfl⟩
  · exact hs w hw
  · exact hf u hu

theorem AtDesks.of_getElem? (hs : AtDesks s) {n : Nat} {w : Worker}
    (hw : s.registry.entries[n]? = some w) : AtDesk s.root w :=
  hs w (List.mem_of_getElem? hw)

theorem AtDesks.startRoutines (hs : AtDesks s) (rules : List Rule) :
    AtDesks (s.startRoutines rules) := by
  unfold System.startRoutines
  induction rules using List.reverseRecOn with
  | nil => exact hs
  | append_singleton rules r ih =>
      intro w hw
      rw [List.foldl_append] at hw
      change w ∈ ((List.foldl _ s.registry rules).getOrCreate r.key Worker.new).2.entries at hw
      unfold Registry.getOrCreate at hw
      -- a rule that has a routine keeps it
      split at hw
      · exact ih w hw
      · rcases List.mem_append.1 hw with hw | hw
        · exact ih w hw
        · rw [List.mem_singleton.1 hw]
          exact .new s.root r.key

theorem AtDesks.deleteRule (hs : AtDesks s) (k : RuleKey) : AtDesks (s.deleteRule k) := by
  have hrest : AtDesks { s with rules := s.rules.remove k, registry := (s.registry.remove k).2 } :=
    hs
  unfold System.deleteRule
  dsimp only
  split
  · exact hrest.modify _ fun w hw => (hrest.of_getElem? hw).fire .ruleDeleted
  · exact hrest

theorem AtDesks.delete (hs : AtDesks s) (ks : List RuleKey) : AtDesks (s.delete ks) := by
  unfold System.delete
  induction ks generalizing s with
  | nil => exact hs
  | cons k ks ih => exact ih (hs.deleteRule k)

theorem AtDesks.dispatch (hs : AtDesks s) (e : Evaluation) (delay : Span) :
    AtDesks (s.dispatch e delay) := by
  unfold System.dispatch
  split
  · exact hs
  · exact hs

theorem AtDesks.dispatchAll (hs : AtDesks s) (ready : List (Evaluation × Span)) :
    AtDesks (ready.foldl (fun s (e, delay) => s.dispatch e delay) s) := by
  induction ready generalizing s with
  | nil => exact hs
  | cons e ready ih => exact ih (hs.dispatch e.1 e.2)

theorem AtDesks.tick (hs : AtDesks s) (time : Moment) (listing : Option RuleSet) :
    AtDesks (s.tick time listing).2 := by
  unfold System.tick
  dsimp only
  apply AtDesks.delete
  apply AtDesks.dispatchAll
  apply AtDesks.startRoutines
  exact hs

theorem AtDesks.release (hs : AtDesks s) {number : Nat} (h : s.release? number = some t) :
    AtDesks t := by
  obtain ⟨d, -, h⟩ := Option.bind_eq_some_iff.1 h
  obtain ⟨w, hw, h⟩ := Option.bind_eq_some_iff.1 h
  dsimp only at h
  split at h
  · cases h
    exact hs
  split at h
  · have hoffered : AtDesks { s with registry := s.registry.modify d.worker fun u =>
        { u with handle := (w.handle.offer s.root d.evaluation).2 } } := by
      refine hs.modify d.worker fun u hu => ?_
      obtain rfl : w = u := Option.some.inj (hw.symm.trans hu)
      exact (hs.of_getElem? hw).offer d.evaluation
    split at h
    · cases h
      exact hoffered
    · cases h
      exact hoffered
  · cases h

/-- Each action is some run at each of the desks. -/
theorem atDesks_step (hs : AtDesks s) {a : Action} (h : s.step? a = some t) : AtDesks t := by
  cases a with
  | setClock clock =>
      cases h
      exact hs
  | elapse millis =>
      cases h
      exact hs
  | tick time listing =>
      cases h
      exact hs.tick time listing
  | delete ks =>
      cases h
      exact hs.delete ks
  | update k version =>
      cases h
      unfold update
      split
      · exact hs.modify _ fun w hw => (hs.of_getElem? hw).post version
      · exact hs
  | stopAll =>
      cases h
      exact fun w hw => (hs w hw).fireRoot .shutdown
  | release number => exact hs.release h
  | worker n input =>
      obtain ⟨w, hw, h⟩ := Option.bind_eq_some_iff.1 h
      obtain ⟨⟨w', shared⟩, hstep, h⟩ := Option.bind_eq_some_iff.1 h
      cases h
      have hdesk : AtDesk s.root w' := (hs.of_getElem? hw).step hstep
      exact hs.modify n fun _ _ => hdesk

/-- **Every routine of an engine is at a desk.** -/
theorem atDesks_of_run {scheduler : SchedulerSettings} {state : StateSettings} {clock : Moment}
    {as : List Action} (h : (new scheduler state clock).run? as = some s) : AtDesks s := by
  induction as using List.reverseRecOn generalizing s with
  | nil =>
      cases h
      exact List.forall_mem_nil _
  | append_singleton as a ih =>
      rw [run?_snoc] at h
      obtain ⟨u, hu, hstep⟩ := Option.bind_eq_some_iff.1 h
      exact atDesks_step (ih hu) hstep

/-- **No wake-up is lost in an engine.** Whenever a mailbox holds a message, its
wake-up is there. -/
theorem permits_of_run {scheduler : SchedulerSettings} {state : StateSettings} {clock : Moment}
    {as : List Action} (h : (new scheduler state clock).run? as = some s) {w : Worker}
    (hw : w ∈ s.registry.entries) :
    (w.handle.pending.isSome = true → w.handle.evaluationPermit = true) ∧
      (w.handle.update.isSome = true → w.handle.updatePermit = true) :=
  (atDesks_of_run h w hw).permits

end System

end Vigil
