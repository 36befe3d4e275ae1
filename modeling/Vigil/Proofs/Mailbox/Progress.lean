import Vigil.Proofs.Mailbox.Protocol

/-!
# No evaluation is forgotten

An evaluation that waits with its wake-up is begun by the steps of the routine
alone, whatever the store and the notifier answer and whatever others do to the
data that routines share (`Desk.begins_of_ready`). Each step that does not begin it
brings it closer: first the versions in the update mailbox are taken, then the
erasure they ask for comes to its end, then the look goes on to the evaluations.
-/

namespace Vigil

theorem Erasure.waiting_answer {erasure : Erasure} {which : Nat}
    (h : which < erasure.waiting.length) (ok : Bool) (d : Shared) :
    (erasure.answer which ok d).1.waiting = erasure.waiting.eraseIdx which := by
  unfold answer
  rw [List.getElem?_eq_getElem h]

namespace Worker

variable {root : Option StopReason} {w w' : Worker} {d d' : Shared} {input : Input}

theorem step_closing {next : Resume} (hphase : w.phase = .closing next)
    (h : w.step? root input d = some (w', d')) : w' = (w.resume next d).1 := by
  unfold step? at h
  rw [hphase] at h
  cases input with
  | delivered => exact (congrArg Prod.fst (Option.some.inj h)).symm
  | _ => exact absurd h nofun

/-- An answer of the store leaves fewer rows to erase, or none. -/
theorem step_erasing {erasure : Erasure} {next : Resume} (hphase : w.phase = .erasing erasure next)
    (h : w.step? root input d = some (w', d')) :
    (∃ rest : Erasure, rest.waiting.length < erasure.waiting.length ∧
        w'.phase = .erasing rest next) ∨
      w'.phase = .closing next ∨ ∃ d, w' = (w.resume next d).1 := by
  unfold step? at h
  rw [hphase] at h
  cases input with
  | stored which ok =>
      dsimp only at h
      split at h
      next hwhich =>
          have hless : (erasure.answer which ok d).1.waiting.length < erasure.waiting.length := by
            rw [Erasure.waiting_answer hwhich ok d, List.length_eraseIdx_of_lt hwhich]
            omega
          split at h
          · obtain rfl := congrArg Prod.fst (Option.some.inj h)
            right
            unfold closeAlerts
            dsimp only
            split
            · exact Or.inr ⟨_, rfl⟩
            · exact Or.inl rfl
          · cases h
            exact Or.inl ⟨_, hless, rfl⟩
      next => cases h
  | _ => exact absurd h nofun

theorem isSome_step_closing {next : Resume} (hphase : w.phase = .closing next) :
    (w.step? root .delivered d).isSome = true := by
  unfold step?
  rw [hphase]
  rfl

theorem isSome_step_erasing {erasure : Erasure} {next : Resume}
    (hphase : w.phase = .erasing erasure next) (hw : w.phase.isAwaiting = true) :
    (w.step? root (.stored 0 true) d).isSome = true := by
  have hlength : 0 < erasure.waiting.length := by
    rw [hphase] at hw
    apply List.length_pos_iff.2
    rintro hnil
    rw [Phase.isAwaiting, Erasure.isDone, hnil] at hw
    cases hw
  unfold step?
  rw [hphase]
  dsimp only
  rw [if_pos hlength]
  split
  · rfl
  · rfl

end Worker

namespace Watch

def updateDebt : Watch → Nat
  | .updateCalled => 2
  | .updateTaken _ => 1
  | _ => 0

def lookDebt : Watch → Nat
  | .asleep => 3
  | .unstopped => 2
  | .noUpdate => 1
  | _ => 0

end Watch

namespace Desk

/-- However the routine goes on, it begins `e`: there is a step that it can take, and
each such step begins `e` or leads to where it holds again. -/
inductive Begins (e : Evaluation) : Desk → Prop where
  | step {s : Desk} (can : ∃ input d, (s.routine? input d).isSome = true)
      (next : ∀ input d t, s.routine? input d = some t → t.begun ≠ s.begun ++ [e] → Begins e t) :
      Begins e s

/-- The evaluation `e` waits, and the routine has the wake-up for it. -/
structure Ready (e : Evaluation) (s : Desk) : Prop where
  inv : Inv s
  unstopped : s.isStopped = false
  pending : s.handle.pending = some e
  called : s.handle.evaluationPermit = true ∨ s.watch = .evaluationCalled

/-- How much the routine has to do about versions before the evaluations. -/
def updateDebt (s : Desk) : Nat :=
  (if s.handle.updatePermit then 3 else 0) + s.watch.updateDebt

/-- How far the look is from the evaluations if there are no versions. -/
def lookDebt (s : Desk) : Nat :=
  match s.worker.phase with
  | .erasing erasure _ => erasure.waiting.length + 5
  | .closing _ => 4
  | _ => s.watch.lookDebt

theorem lookDebt_erasing {s : Desk} {erasure : Erasure} {next : Resume}
    (hphase : s.worker.phase = .erasing erasure next) :
    s.lookDebt = erasure.waiting.length + 5 := by
  unfold lookDebt
  rw [hphase]

theorem lookDebt_closing {s : Desk} {next : Resume} (hphase : s.worker.phase = .closing next) :
    s.lookDebt = 4 := by
  unfold lookDebt
  rw [hphase]

theorem lookDebt_idle {s : Desk} (hidle : s.worker.phase = .idle) :
    s.lookDebt = s.watch.lookDebt := by
  unfold lookDebt
  rw [hidle]

theorem lookDebt_lt {s t : Desk} (hs : s.worker.phase = .idle) (ht : t.worker.phase = .idle)
    (h : t.watch.lookDebt < s.watch.lookDebt) : t.lookDebt < s.lookDebt := by
  rw [lookDebt_idle hs, lookDebt_idle ht]
  exact h

/-- The routine has less to do at `t` than at `s` before it comes to the evaluations. -/
def Sooner (t s : Desk) : Prop :=
  t.updateDebt < s.updateDebt ∨ t.updateDebt = s.updateDebt ∧ t.lookDebt < s.lookDebt

variable {e : Evaluation} {s : Desk}

namespace Ready

theorem running (h : Ready e s) : s.handle.running = false := by
  cases hr : s.handle.running with
  | false => rfl
  | true => exact absurd (h.pending.symm.trans (h.inv.exclusive hr)) nofun

theorem phase_cases (h : Ready e s) : s.worker.phase = .idle ∨
    (∃ erasure version, s.worker.phase = .erasing erasure (.adopt version)) ∨
    ∃ version, s.worker.phase = .closing (.adopt version) := by
  have hbusy := h.inv.busy
  have hleaving : ¬ s.worker.phase.isLeaving = true := fun hl =>
    absurd (h.unstopped.symm.trans (h.inv.leaving hl)) nofun
  rw [h.running] at hbusy
  have hworking : s.worker.phase.isWorking = false := (Bool.or_eq_false_iff.1 hbusy.symm).2
  cases hphase : s.worker.phase with
  | idle => exact Or.inl rfl
  | erasing erasure next =>
      rw [hphase] at hleaving hworking
      cases next with
      | exit => exact absurd rfl hleaving
      | adopt version => exact Or.inr (Or.inl ⟨erasure, version, rfl⟩)
      | evaluate e => cases hworking
  | closing next =>
      rw [hphase] at hleaving hworking
      cases next with
      | exit => exact absurd rfl hleaving
      | adopt version => exact Or.inr (Or.inr ⟨version, rfl⟩)
      | evaluate e => cases hworking
  | exited =>
      rw [hphase] at hleaving
      exact absurd rfl hleaving
  | _ =>
      rw [hphase] at hworking
      cases hworking

/-- There is always something that the routine can do next. -/
theorem can (h : Ready e s) : ∃ input d, (s.routine? input d).isSome = true := by
  rcases h.phase_cases with hphase | ⟨erasure, version, hphase⟩ | ⟨version, hphase⟩
  · exact ⟨.wake, { clock := .epoch }, by rw [routine?_idle hphase]; rfl⟩
  · refine ⟨.stored 0 true, { clock := .epoch }, ?_⟩
    rw [routine?_of_ne_idle (by rw [hphase]; nofun), Option.isSome_map]
    exact Worker.isSome_step_erasing hphase h.inv.awaiting
  · refine ⟨.delivered, { clock := .epoch }, ?_⟩
    rw [routine?_of_ne_idle (by rw [hphase]; nofun), Option.isSome_map]
    exact Worker.isSome_step_closing hphase

theorem updatePermit_advance {w : Worker} (hk : Worker.Keeps s.root s.worker w) :
    (s.advance w).handle.updatePermit = s.handle.updatePermit := by
  show w.handle.updatePermit = s.worker.handle.updatePermit
  rw [hk.handle]

theorem advance (h : Ready e s) {w : Worker} (hk : Worker.Keeps s.root s.worker w)
    (hinv : Inv (s.advance w)) (hw : s.watch ≠ .evaluationCalled) : Ready e (s.advance w) := by
  have hhandle : (s.advance w).handle = { s.handle with running := w.phase.isWorking } := hk.handle
  refine ⟨hinv, ?_, ?_, ?_⟩
  · unfold isStopped
    rw [hhandle]
    exact h.unstopped
  · rw [hhandle]
    exact h.pending
  · rw [hhandle]
    exact Or.inl (h.called.resolve_right hw)

/-- A look that does not begin the evaluation leaves less to do. -/
theorem look (h : Ready e s) (hidle : s.worker.phase = .idle) (d : Shared) :
    (s.look d).begun = s.begun ++ [e] ∨ (Ready e (s.look d) ∧ Sooner (s.look d) s) := by
  have hinv := h.inv.look hidle d
  have hbusy := h.inv.busy
  rw [hidle, h.running] at hbusy
  cases hw : s.watch with
  | asleep =>
      have hreason : s.handle.reason s.root = none := Option.not_isSome_iff_eq_none.1
        fun hr => absurd (h.unstopped.symm.trans hr) nofun
      have hcalled := h.called.resolve_right (by rw [hw]; nofun)
      rw [look_of_unstopped d hw hreason] at hinv ⊢
      refine Or.inr ⟨⟨hinv, h.unstopped, h.pending, Or.inl hcalled⟩, Or.inr ⟨?_, ?_⟩⟩
      · rw [updateDebt, updateDebt, hw]
        rfl
      · refine lookDebt_lt hidle ?_ ?_
        · exact hidle
        · rw [hw]
          exact Nat.lt_succ_self _
  | unstopped =>
      have hcalled := h.called.resolve_right (by rw [hw]; nofun)
      by_cases hpermit : s.handle.updatePermit = true
      · rw [look_of_updatePermit d hw hpermit] at hinv ⊢
        refine Or.inr ⟨⟨hinv, h.unstopped, h.pending, Or.inl hcalled⟩, Or.inl ?_⟩
        rw [updateDebt, updateDebt, hw, hpermit]
        show 0 + 2 < 3 + 0
        decide
      · rw [look_of_no_updatePermit d hw hpermit] at hinv ⊢
        refine Or.inr ⟨⟨hinv, h.unstopped, h.pending, Or.inl hcalled⟩, Or.inr ⟨?_, ?_⟩⟩
        · rw [updateDebt, updateDebt, hw]
          rfl
        · refine lookDebt_lt hidle ?_ ?_
          · exact hidle
          · rw [hw]
            exact Nat.lt_succ_self _
  | noUpdate =>
      have hcalled := h.called.resolve_right (by rw [hw]; nofun)
      rw [look_of_evaluationPermit d hw hcalled] at hinv ⊢
      refine Or.inr ⟨⟨hinv, h.unstopped, h.pending, Or.inr rfl⟩, Or.inr ⟨?_, ?_⟩⟩
      · rw [updateDebt, updateDebt, hw]
        rfl
      · refine lookDebt_lt hidle ?_ ?_
        · exact hidle
        · rw [hw]
          exact Nat.lt_succ_self _
  | updateCalled =>
      have hcalled := h.called.resolve_right (by rw [hw]; nofun)
      rw [look_of_updateCalled d hw rfl] at hinv ⊢
      refine Or.inr ⟨⟨hinv, h.unstopped, h.pending, Or.inl hcalled⟩, Or.inl ?_⟩
      rw [updateDebt, updateDebt, hw]
      apply Nat.add_lt_add_left
      cases s.handle.update with
      | none =>
          show 0 < 2
          decide
      | some version =>
          show 1 < 2
          decide
  | updateTaken version =>
      have hk : Worker.Keeps s.root s.worker (s.worker.onUpdate version d).1 :=
        Worker.keeps_onUpdate h.running hidle version
      rw [look_of_updateTaken d hw] at hinv ⊢
      refine Or.inr ⟨h.advance hk hinv (by rw [hw]; nofun), Or.inl ?_⟩
      rw [updateDebt, updateDebt, hw, updatePermit_advance hk]
      exact Nat.lt_succ_self _
  | evaluationCalled =>
      rw [look_of_pending d hw h.pending]
      left
      exact begun_note _ _
  | evaluationTaken e' =>
      rw [hw] at hbusy
      cases hbusy

/-- So does a step towards the next look. -/
theorem step (h : Ready e s) (hidle : s.worker.phase ≠ .idle) {w : Worker} {input : Input}
    {d d' : Shared} (hstep : s.worker.step? s.root input d = some (w, d')) :
    Ready e (s.advance w) ∧ Sooner (s.advance w) s := by
  have hasleep : s.watch = .asleep := h.inv.asleep hidle
  have hbusy := h.inv.busy
  rw [hasleep] at hbusy
  have hk := Worker.keeps_step hidle hbusy h.inv.leaving hstep
  have hinv : Inv (s.advance w) := h.inv.advance hasleep nofun nofun hk
  refine ⟨h.advance hk hinv (by rw [hasleep]; nofun), Or.inr ⟨?_, ?_⟩⟩
  · rw [updateDebt, updateDebt, updatePermit_advance hk, hasleep]
    rfl
  rcases h.phase_cases with hphase | ⟨erasure, version, hphase⟩ | ⟨version, hphase⟩
  · exact absurd hphase hidle
  -- an erasure has fewer rows left, or its alerts to close, or is over
  · rw [lookDebt_erasing hphase]
    rcases Worker.step_erasing hphase hstep with ⟨rest, hless, hrest⟩ | hclosing | ⟨d, rfl⟩
    · have hdebt : (s.advance w).lookDebt = rest.waiting.length + 5 := lookDebt_erasing hrest
      omega
    · have hdebt : (s.advance w).lookDebt = 4 := lookDebt_closing hclosing
      omega
    · show 3 < erasure.waiting.length + 5
      omega
  · rw [lookDebt_closing hphase]
    obtain rfl := Worker.step_closing hphase hstep
    show 3 < 4
    decide

theorem next (h : Ready e s) {input : Input} {d : Shared} {t : Desk}
    (ht : s.routine? input d = some t) (hne : t.begun ≠ s.begun ++ [e]) :
    Ready e t ∧ Sooner t s := by
  rcases routine?_cases ht with ⟨hidle, rfl⟩ | ⟨hidle, w, d', hstep, rfl⟩
  · exact (h.look hidle d).resolve_left hne
  · exact h.step hidle hstep

end Ready

/-- **No evaluation is forgotten.** One that waits with its wake-up is begun, whatever
the steps of the routine come upon. -/
theorem begins_of_ready {s : Desk} (h : Ready e s) : Begins e s :=
  .step h.can fun _ _ _ ht hne => begins_of_ready (h.next ht hne).1
-- a version taken may cost an erasure, so the versions come first
termination_by (s.updateDebt, s.lookDebt)
decreasing_by
  exact Prod.lex_def.2 (h.next ht hne).2

/-! ## The protocol -/

/-- Call `n` has its answer. -/
def HasReturned (s : Desk) (n : Nat) : Prop :=
  ∃ c, s.calls[n]? = some c ∧ c.isAnswered = true

/-- Nothing waits and nothing is at work exactly if all that was accepted has come to
an end. -/
theorem Inv.accepted_length_eq_iff (hs : Inv s) :
    s.accepted.length = s.finishes ↔ s.handle.pending = none ∧ s.handle.running = false := by
  have haccepted : s.accepted.length =
      s.finishes + s.handle.running.toNat + s.handle.pending.toList.length := by
    have := congrArg List.length hs.accepted_eq
    rwa [List.length_map, List.length_append, hs.begun_length] at this
  rw [haccepted]
  cases s.handle.pending with
  | none => cases s.handle.running <;> simp
  | some e =>
      have hpositive : 0 < (some e).toList.length := Nat.one_pos
      constructor
      · omega
      · rintro ⟨hnone, -⟩
        cases hnone

/-- The wake-up of a waiting evaluation is there once its call has returned. -/
theorem Inv.called_of_returned (hs : Inv s) {n : Nat} (hpending : s.handle.pending = some e)
    (hlast : s.accepted.getLast? = some (n, e)) (hreturned : s.HasReturned n) :
    s.handle.evaluationPermit = true ∨ s.watch = .evaluationCalled := by
  rcases hs.evaluationCalled (by rw [hpending]; rfl) with hpermit | hwatch | ⟨m, e', hlast', hcall⟩
  · exact Or.inl hpermit
  · exact Or.inr hwatch
  · obtain ⟨c, hc, hanswered⟩ := hreturned
    rw [hlast'] at hlast
    cases hlast
    rw [hcall] at hc
    cases hc
    cases hanswered

/-- The wake-up for the versions is there once one of their calls has returned. -/
theorem Inv.updateCalled_of_returned (hs : Inv s) {c : Nat × Int} (hc : c ∈ s.unread)
    (hreturned : s.HasReturned c.1) : s.handle.updatePermit = true ∨ s.watch = .updateCalled := by
  rcases hs.updateCalled with hpermit | hwatch | hcalls
  · exact Or.inl hpermit
  · exact Or.inr hwatch
  · obtain ⟨call, hcall, hanswered⟩ := hreturned
    rw [hcalls c hc] at hcall
    cases hcall
    cases hanswered

theorem Inv.evaluationPermit_of_waiting (hs : Inv s) (hwaiting : s.IsWaiting) {n : Nat}
    (hpending : s.handle.pending = some e) (hlast : s.accepted.getLast? = some (n, e))
    (hreturned : s.HasReturned n) : s.handle.evaluationPermit = true := by
  rcases hs.called_of_returned hpending hlast hreturned with hpermit | hwatch
  · exact hpermit
  · cases hwaiting.2.symm.trans hwatch

theorem Inv.updatePermit_of_waiting (hs : Inv s) (hwaiting : s.IsWaiting) {c : Nat × Int}
    (hc : c ∈ s.unread) (hreturned : s.HasReturned c.1) : s.handle.updatePermit = true := by
  rcases hs.updateCalled_of_returned hc hreturned with hpermit | hwatch
  · exact hpermit
  · cases hwaiting.2.symm.trans hwatch

/-- **The mailbox protocol.** Wherever a run leads, no evaluation waits while one is at
work, and the busy flag tells whether one is. An offer is taken exactly if the handle
is free. The accepted evaluations are those begun, in order, and the one that waits,
which the routine begins once its call has returned. No message lies in a mailbox
beside a waiting routine without its wake-up, and the update mailbox holds the highest
version not yet taken. -/
theorem mailbox_protocol_of_run (k : RuleKey) (ms : List Move) (h : (new k).run? ms = some s) :
    (s.handle.running = true → s.handle.pending = none) ∧
    s.handle.running = (s.watch.hasTaken || s.worker.phase.isWorking) ∧
    s.begun.length = s.finishes + s.handle.running.toNat ∧
    (s.accepted.length = s.finishes ↔ s.handle.pending = none ∧ s.handle.running = false) ∧
    (∀ e, s.isStopped = false → s.handle.offer s.root e =
      if s.handle.pending = none ∧ s.handle.running = false then
        (.ok none, { s.handle with pending := some e, evaluationPermit := true })
      else (.ok (some e), s.handle)) ∧
    (∀ n e, s.calls[n]? = some (.place e) → s.proceed? n = some
      (if s.handle.pending = none ∧ s.handle.running = false then
        ((s.withHandle { s.handle with pending := some e }).withCall n .callEvaluation).note
          (.accepted n e)
      else s.withCall n (.offered (.ok (some e))))) ∧
    s.accepted.map Prod.snd = s.begun ++ s.handle.pending.toList ∧
    (∀ n e, s.isStopped = false → s.handle.pending = some e →
      s.accepted.getLast? = some (n, e) → s.HasReturned n → Begins e s) ∧
    (s.IsWaiting →
      (∀ n e, s.handle.pending = some e → s.accepted.getLast? = some (n, e) → s.HasReturned n →
        s.handle.evaluationPermit = true) ∧
      ∀ c ∈ s.unread, s.HasReturned c.1 → s.handle.updatePermit = true) ∧
    s.handle.update = (s.unread.map Prod.snd).max? := by
  have hs := inv_run k h
  refine ⟨hs.exclusive, hs.busy, hs.begun_length, hs.accepted_length_eq_iff, ?_, ?_,
    hs.accepted_eq, ?_, ?_, hs.update_eq⟩
  · intro e hstopped
    have hunstopped : ¬ s.handle.isStopped s.root = true := by
      rw [Bool.not_eq_true]
      exact hstopped
    rw [Handle.offer_eq, if_neg hunstopped, Handle.place?_eq]
    split
    · rfl
    · rfl
  · intro n e hcall
    rw [proceed?, hcall, Option.bind_some, take?, Handle.place?_eq]
    by_cases hfree : s.handle.pending = none ∧ s.handle.running = false
    · rw [if_pos hfree, if_pos hfree]
    · rw [if_neg hfree, if_neg hfree]
  · intro n e hstopped hpending hlast hreturned
    exact begins_of_ready ⟨hs, hstopped, hpending, hs.called_of_returned hpending hlast hreturned⟩
  · intro hwaiting
    constructor
    · intro n e hpending hlast hreturned
      exact hs.evaluationPermit_of_waiting hwaiting hpending hlast hreturned
    · intro c hc hreturned
      exact hs.updatePermit_of_waiting hwaiting hc hreturned

/-- An evaluation is offered, and the call returns. -/
def offered (e : Evaluation) : List Move := [.offer e, .proceed 0, .proceed 0, .proceed 0]

theorem mailbox_protocol_of_run_offered :
    ∃ s, (new default).run? (offered default) = some s ∧
      s.handle.pending = some default ∧ Begins default s := by
  refine ⟨_, rfl, rfl, ?_⟩
  obtain ⟨-, -, -, -, -, -, -, hbegins, -⟩ := mailbox_protocol_of_run default (offered default) rfl
  exact hbegins 0 default rfl rfl rfl ⟨_, rfl, rfl⟩

end Desk

end Vigil
