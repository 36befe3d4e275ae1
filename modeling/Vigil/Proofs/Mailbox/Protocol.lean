import Mathlib.Data.List.Induction
import Vigil.Proofs.Mailbox.Desk

/-!
# The mailbox protocol

What holds at a desk however the calls to a handle and the steps of its routine
come between each other (`Desk.Inv`). No evaluation waits while one is at work. The
evaluations that were accepted are those begun, in the same order, and the one that
waits. The update mailbox holds the highest of the versions not yet taken. And
whatever a mailbox holds, its wake-up is there, or on its way with the call that
put it in, or with the routine that is about to look.
-/

namespace Vigil

/-! ## What happened so far -/

namespace Notice

def acceptance? : Notice → Option (Nat × Evaluation)
  | .accepted n e => some (n, e)
  | _ => none

def beginning? : Notice → Option Evaluation
  | .begun e => some e
  | _ => none

def isFinish : Notice → Bool
  | .finished => true
  | _ => false

/-- The versions not yet taken, after this notice. -/
def unread (vs : List (Nat × Int)) : Notice → List (Nat × Int)
  | .stored n version => vs ++ [(n, version)]
  | .taken => []
  | _ => vs

end Notice

/-- Whether the routine holds an evaluation that it took and has yet to start on. -/
def Watch.hasTaken : Watch → Bool
  | .evaluationTaken _ => true
  | _ => false

/-- Whether the call is about to leave a wake-up. -/
def Call.isCalling : Call → Bool
  | .callEvaluation | .callUpdate => true
  | _ => false

namespace Desk

/-- The accepted evaluations in the order of their acceptance, with their calls. -/
def accepted (s : Desk) : List (Nat × Evaluation) := s.past.filterMap Notice.acceptance?

/-- The evaluations begun, in order. -/
def begun (s : Desk) : List Evaluation := s.past.filterMap Notice.beginning?

/-- How many evaluations have come to an end. -/
def finishes (s : Desk) : Nat := s.past.countP Notice.isFinish

/-- The versions sent since the last were taken, with their calls. -/
def unread (s : Desk) : List (Nat × Int) := s.past.foldl Notice.unread []

theorem accepted_note (s : Desk) (x : Notice) :
    (s.note x).accepted = s.accepted ++ x.acceptance?.toList := by
  cases x <;> simp [accepted, note, Notice.acceptance?]

theorem begun_note (s : Desk) (x : Notice) :
    (s.note x).begun = s.begun ++ x.beginning?.toList := by
  cases x <;> simp [begun, note, Notice.beginning?]

theorem finishes_note (s : Desk) (x : Notice) :
    (s.note x).finishes = s.finishes + x.isFinish.toNat := by
  cases x <;> simp [finishes, note, Notice.isFinish]

theorem unread_note (s : Desk) (x : Notice) : (s.note x).unread = Notice.unread s.unread x := by
  simp [unread, note]

/-- The routine waits at its mailboxes. -/
def IsWaiting (s : Desk) : Prop := s.worker.phase = .idle ∧ s.watch = .asleep

/-! ## Wake-ups -/

/-- The wake-up for a waiting evaluation is there, taken, or about to be left by the
call that put it in. -/
def EvaluationCalled (s : Desk) : Prop :=
  s.handle.evaluationPermit = true ∨ s.watch = .evaluationCalled ∨
    ∃ n e, s.accepted.getLast? = some (n, e) ∧ s.calls[n]? = some .callEvaluation

/-- The wake-up for the versions is there or taken, or all are about to leave one. -/
def UpdateCalled (s : Desk) : Prop :=
  s.handle.updatePermit = true ∨ s.watch = .updateCalled ∨
    ∀ c ∈ s.unread, s.calls[c.1]? = some .callUpdate

theorem EvaluationCalled.mono {s t : Desk} (h : s.EvaluationCalled)
    (hpermit : s.handle.evaluationPermit = true → t.handle.evaluationPermit = true)
    (hwatch : s.watch = .evaluationCalled → t.watch = .evaluationCalled)
    (haccepted : t.accepted = s.accepted)
    (hcalls : ∀ n : Nat, s.calls[n]? = some .callEvaluation →
      t.calls[n]? = some .callEvaluation) :
    t.EvaluationCalled := by
  rcases h with h | h | ⟨n, e, hlast, hcall⟩
  · exact Or.inl (hpermit h)
  · exact Or.inr (Or.inl (hwatch h))
  · rw [← haccepted] at hlast
    exact Or.inr (Or.inr ⟨n, e, hlast, hcalls n hcall⟩)

theorem UpdateCalled.mono {s t : Desk} (h : s.UpdateCalled)
    (hpermit : s.handle.updatePermit = true → t.handle.updatePermit = true)
    (hwatch : s.watch = .updateCalled → t.watch = .updateCalled)
    (hunread : t.unread = s.unread)
    (hcalls : ∀ n : Nat, s.calls[n]? = some .callUpdate → t.calls[n]? = some .callUpdate) :
    t.UpdateCalled := by
  rcases h with h | h | h
  · exact Or.inl (hpermit h)
  · exact Or.inr (Or.inl (hwatch h))
  · refine Or.inr (Or.inr fun c hc => ?_)
    rw [hunread] at hc
    exact hcalls c.1 (h c hc)

/-! ## The invariant -/

structure Inv (s : Desk) : Prop where
  busy : s.handle.running = (s.watch.hasTaken || s.worker.phase.isWorking)
  looking : s.watch ≠ .asleep → s.worker.phase = .idle
  exclusive : s.handle.running = true → s.handle.pending = none
  leaving : s.worker.phase.isLeaving = true → s.isStopped = true
  awaiting : s.worker.phase.isAwaiting = true
  accepted_eq : s.accepted.map Prod.snd = s.begun ++ s.handle.pending.toList
  begun_length : s.begun.length = s.finishes + s.handle.running.toNat
  update_eq : s.handle.update = (s.unread.map Prod.snd).max?
  evaluationCalled : s.handle.pending.isSome = true → s.EvaluationCalled
  updateCalled : s.UpdateCalled

theorem max?_concat (vs : List Int) (v : Int) :
    (vs ++ [v]).max? = some (vs.max?.elim v (max · v)) := by
  cases vs with
  | nil => rfl
  | cons u vs =>
      rw [List.cons_append, List.max?_cons', List.max?_cons', List.foldl_append]
      rfl

theorem inv_new (k : RuleKey) : Inv (new k) where
  busy := rfl
  looking := nofun
  exclusive := nofun
  leaving := nofun
  awaiting := rfl
  accepted_eq := rfl
  begun_length := rfl
  update_eq := rfl
  evaluationCalled := nofun
  updateCalled := Or.inr (Or.inr nofun)

variable {s : Desk}

theorem Inv.asleep (hs : Inv s) (hidle : s.worker.phase ≠ .idle) : s.watch = .asleep := by
  cases hw : s.watch with
  | asleep => rfl
  | _ => exact absurd (hs.looking (by rw [hw]; nofun)) hidle

/-! ## Steps of the calls -/

/-- Calls that leave no wake-up may come and go. -/
theorem Inv.of_calls (hs : Inv s) {calls : List Call}
    (h : ∀ (n : Nat) (c : Call), s.calls[n]? = some c → c.isCalling = true → calls[n]? = some c) :
    Inv { s with calls } :=
  { hs with
    evaluationCalled := fun he =>
      (hs.evaluationCalled he).mono id id rfl fun n hn => h n _ hn rfl
    updateCalled := hs.updateCalled.mono id id rfl fun n hn => h n _ hn rfl }

theorem Inv.call (hs : Inv s) (c : Call) : Inv { s with calls := s.calls ++ [c] } := by
  apply hs.of_calls
  intro n c' hn _
  rw [List.getElem?_append_left (List.getElem?_eq_some_iff.1 hn).1, hn]

/-- Any other call stays where it is. -/
theorem getElem?_set_of_ne {calls : List Call} {n m : Nat} {c c' x : Call}
    (hc : calls[n]? = some c) (hx : calls[m]? = some x) (hne : c ≠ x) :
    (calls.set n c')[m]? = some x := by
  have hnm : n ≠ m := by
    rintro rfl
    rw [hc] at hx
    exact hne (Option.some.inj hx)
  rw [List.getElem?_set_ne hnm, hx]

theorem getElem?_set_of_eq {calls : List Call} {n : Nat} {c c' : Call} (hc : calls[n]? = some c) :
    (calls.set n c')[n]? = some c' :=
  List.getElem?_set_self (List.getElem?_eq_some_iff.1 hc).1

theorem Inv.withCall (hs : Inv s) {n : Nat} {c : Call} (hc : s.calls[n]? = some c)
    (hcalling : c.isCalling = false) (c' : Call) : Inv (s.withCall n c') := by
  apply hs.of_calls
  intro m x hx hx'
  refine getElem?_set_of_ne hc hx ?_
  rintro rfl
  rw [hcalling] at hx'
  exact Bool.noConfusion hx'

theorem Inv.place (hs : Inv s) {n : Nat} {e : Evaluation} {h : Handle}
    (hc : s.calls[n]? = some (.place e)) (hp : s.handle.place? e = some h) :
    Inv (((s.withHandle h).withCall n .callEvaluation).note (.accepted n e)) := by
  unfold Handle.place? at hp
  split at hp
  · cases hp
  rename_i hfree
  cases hp
  rw [Bool.or_eq_true, not_or, Bool.not_eq_true, Option.not_isSome_iff_eq_none] at hfree
  obtain ⟨hrunning, hpending⟩ := hfree
  exact {
    busy := hs.busy
    looking := hs.looking
    exclusive := fun h => absurd (hrunning.symm.trans h) nofun
    leaving := hs.leaving
    awaiting := hs.awaiting
    accepted_eq := by
      rw [accepted_note, begun_note]
      show (s.accepted ++ [(n, e)]).map Prod.snd = s.begun ++ [] ++ [e]
      rw [List.map_append, hs.accepted_eq, hpending]
      simp
    begun_length := by
      rw [begun_note, finishes_note]
      show (s.begun ++ []).length = s.finishes + 0 + s.handle.running.toNat
      rw [List.append_nil, Nat.add_zero, hs.begun_length]
    update_eq := by
      rw [unread_note]
      exact hs.update_eq
    evaluationCalled := fun _ => by
      refine Or.inr (Or.inr ⟨n, e, ?_, getElem?_set_of_eq hc⟩)
      rw [accepted_note]
      exact List.getLast?_concat
    updateCalled := hs.updateCalled.mono id id (unread_note ..) fun _ hm =>
      getElem?_set_of_ne hc hm nofun }

theorem Inv.store (hs : Inv s) {n : Nat} {version : Int}
    (hc : s.calls[n]? = some (.store version)) :
    Inv (((s.withHandle (s.handle.store version)).withCall n .callUpdate).note
      (.stored n version)) :=
  { busy := hs.busy
    looking := hs.looking
    exclusive := hs.exclusive
    leaving := hs.leaving
    awaiting := hs.awaiting
    accepted_eq := by
      rw [accepted_note, begun_note]
      show (s.accepted ++ []).map Prod.snd = s.begun ++ [] ++ s.handle.pending.toList
      rw [List.append_nil, List.append_nil, hs.accepted_eq]
    begun_length := by
      rw [begun_note, finishes_note]
      show (s.begun ++ []).length = s.finishes + 0 + s.handle.running.toNat
      rw [List.append_nil, Nat.add_zero, hs.begun_length]
    update_eq := by
      rw [unread_note]
      show some (s.handle.update.elim version (max · version)) =
        ((s.unread ++ [(n, version)]).map Prod.snd).max?
      rw [List.map_append, hs.update_eq]
      exact (max?_concat ..).symm
    evaluationCalled := fun he => by
      refine (hs.evaluationCalled he).mono id id ?_ fun _ hm => getElem?_set_of_ne hc hm nofun
      rw [accepted_note]
      exact List.append_nil _
    updateCalled := by
      unfold UpdateCalled
      rw [unread_note]
      rcases hs.updateCalled with hpermit | hwatch | hcalls
      · exact Or.inl hpermit
      · exact Or.inr (Or.inl hwatch)
      -- those before are still to leave their wake-ups, and so is this one
      · refine Or.inr (Or.inr fun c hm => ?_)
        rcases List.mem_append.1 hm with hm | hm
        · exact getElem?_set_of_ne hc (hcalls c hm) nofun
        · rw [List.mem_singleton.1 hm]
          exact getElem?_set_of_eq hc }

theorem Inv.callEvaluation (hs : Inv s) {n : Nat} (hc : s.calls[n]? = some .callEvaluation)
    (c' : Call) : Inv ((s.withHandle s.handle.callEvaluation).withCall n c') :=
  { hs with
    evaluationCalled := fun _ => Or.inl rfl
    updateCalled := hs.updateCalled.mono id id rfl fun _ hm => getElem?_set_of_ne hc hm nofun }

theorem Inv.callUpdate (hs : Inv s) {n : Nat} (hc : s.calls[n]? = some .callUpdate)
    (c' : Call) : Inv ((s.withHandle s.handle.callUpdate).withCall n c') :=
  { hs with
    evaluationCalled := fun he =>
      (hs.evaluationCalled he).mono id id rfl fun _ hm => getElem?_set_of_ne hc hm nofun
    updateCalled := Or.inl rfl }

theorem Inv.take (hs : Inv s) {n : Nat} {c : Call} (hc : s.calls[n]? = some c) {t : Desk}
    (h : s.take? n c = some t) : Inv t := by
  cases c with
  | offer e =>
      cases h
      exact hs.withCall hc rfl _
  | place e =>
      unfold take? at h
      dsimp only at h
      cases hp : s.handle.place? e with
      | some handle =>
          rw [hp] at h
          cases h
          exact hs.place hc hp
      | none =>
          rw [hp] at h
          cases h
          exact hs.withCall hc rfl _
  | callEvaluation =>
      cases h
      exact hs.callEvaluation hc _
  | post version =>
      cases h
      exact hs.withCall hc rfl _
  | store version =>
      cases h
      exact hs.store hc
  | callUpdate =>
      cases h
      exact hs.callUpdate hc _
  | offered answer => cases h
  | posted answer => cases h

/-! ## Steps of the routine -/

theorem accepted_advance (s : Desk) (w : Worker) : (s.advance w).accepted = s.accepted := by
  unfold accepted advance
  rw [List.filterMap_append]
  split
  · exact List.append_nil _
  · exact List.append_nil _

theorem begun_advance (s : Desk) (w : Worker) : (s.advance w).begun = s.begun := by
  unfold begun advance
  rw [List.filterMap_append]
  split
  · exact List.append_nil _
  · exact List.append_nil _

theorem unread_advance (s : Desk) (w : Worker) : (s.advance w).unread = s.unread := by
  unfold unread advance
  rw [List.foldl_append]
  split
  · rfl
  · rfl

theorem finishes_advance (s : Desk) (w : Worker) :
    (s.advance w).finishes = s.finishes + (s.handle.running && !w.handle.running).toNat := by
  unfold finishes advance
  rw [List.countP_append]
  split
  next h => rw [h]; rfl
  next h => rw [Bool.not_eq_true _ |>.mp h]; rfl

/-- A step away from the mailboxes. -/
theorem Inv.advance (hs : Inv s) {watch : Watch} (hw : s.watch = watch)
    (hevaluation : watch ≠ .evaluationCalled) (hupdate : watch ≠ .updateCalled) {w : Worker}
    (hk : Worker.Keeps s.root s.worker w) : Inv (s.advance w) := by
  have hhandle : (s.advance w).handle = { s.handle with running := w.phase.isWorking } := hk.handle
  exact {
    busy := by
      rw [hhandle]
      rfl
    looking := fun h => absurd rfl h
    exclusive := fun h => by
      rw [hhandle] at h ⊢
      exact hs.exclusive (hk.working h)
    leaving := fun h => by
      unfold isStopped
      rw [hhandle]
      exact hk.leaving h
    awaiting := hk.awaiting
    accepted_eq := by
      rw [accepted_advance, begun_advance, hhandle]
      exact hs.accepted_eq
    begun_length := by
      have hw : w.handle.running = w.phase.isWorking := congrArg Handle.running hk.handle
      rw [begun_advance, finishes_advance, hhandle, hs.begun_length, hw]
      -- the flag stays, or it falls and `past` has one more end
      cases hworking : w.phase.isWorking with
      | true =>
          rw [show s.handle.running = true from hk.working hworking]
          rfl
      | false => cases s.handle.running <;> rfl
    update_eq := by
      rw [unread_advance, hhandle]
      exact hs.update_eq
    evaluationCalled := fun he => by
      rw [hhandle] at he
      refine (hs.evaluationCalled he).mono ?_ ?_ (accepted_advance s w) fun _ => id
      · rw [hhandle]
        exact id
      · exact fun hcalled => absurd (hw.symm.trans hcalled) hevaluation
    updateCalled := by
      refine hs.updateCalled.mono ?_ ?_ (unread_advance s w) fun _ => id
      · rw [hhandle]
        exact id
      · exact fun hcalled => absurd (hw.symm.trans hcalled) hupdate }

/-- A look goes on that has neither a wake-up nor a message in hand. -/
theorem Inv.withWatch (hs : Inv s) (hidle : s.worker.phase = .idle) {watch watch' : Watch}
    (hw : s.watch = watch) (hevaluation : watch = .evaluationCalled → s.handle.pending = none)
    (hupdate : watch ≠ .updateCalled) (htaken : watch.hasTaken = false)
    (htaken' : watch'.hasTaken = false) : Inv { s with watch := watch' } :=
  { hs with
    busy := by
      rw [htaken', ← htaken, ← hw]
      exact hs.busy
    looking := fun _ => hidle
    evaluationCalled := fun he => by
      refine (hs.evaluationCalled he).mono id (fun hcalled => ?_) rfl fun _ => id
      have hpending : s.handle.pending = none := hevaluation (hw.symm.trans hcalled)
      have hsome : s.handle.pending.isSome = true := he
      rw [hpending] at hsome
      exact Bool.noConfusion hsome
    updateCalled := hs.updateCalled.mono id
      (fun hcalled => absurd (hw.symm.trans hcalled) hupdate) rfl fun _ => id }

theorem Inv.takeUpdatePermit (hs : Inv s) (hw : s.watch = .unstopped) :
    Inv { s.withHandle { s.handle with updatePermit := false } with watch := .updateCalled } :=
  { hs with
    busy := by
      have hbusy := hs.busy
      rw [hw] at hbusy
      exact hbusy
    looking := fun _ => hs.looking (by rw [hw]; nofun)
    evaluationCalled := fun he => (hs.evaluationCalled he).mono id
      (fun hcalled => absurd (hw.symm.trans hcalled) nofun) rfl fun _ => id
    updateCalled := Or.inr (Or.inl rfl) }

theorem Inv.takeEvaluationPermit (hs : Inv s) (hw : s.watch = .noUpdate) :
    Inv { s.withHandle { s.handle with evaluationPermit := false } with
      watch := .evaluationCalled } :=
  { hs with
    busy := by
      have hbusy := hs.busy
      rw [hw] at hbusy
      exact hbusy
    looking := fun _ => hs.looking (by rw [hw]; nofun)
    evaluationCalled := fun _ => Or.inr (Or.inl rfl)
    updateCalled := hs.updateCalled.mono id
      (fun hcalled => absurd (hw.symm.trans hcalled) nofun) rfl fun _ => id }

theorem Inv.takeUpdate (hs : Inv s) (hw : s.watch = .updateCalled) :
    Inv { (s.withHandle { s.handle with update := none }).note .taken with
      watch := s.handle.update.elim .asleep .updateTaken } :=
  { hs with
    busy := by
      have hbusy := hs.busy
      rw [hw] at hbusy
      cases hu : s.handle.update with
      | none => exact hbusy
      | some version => exact hbusy
    looking := fun _ => hs.looking (by rw [hw]; nofun)
    accepted_eq := by
      show (note _ .taken).accepted.map Prod.snd = (note _ .taken).begun ++ s.handle.pending.toList
      rw [accepted_note, begun_note]
      show (s.accepted ++ []).map Prod.snd = s.begun ++ [] ++ s.handle.pending.toList
      rw [List.append_nil, List.append_nil, hs.accepted_eq]
    begun_length := by
      show (note _ .taken).begun.length = (note _ .taken).finishes + s.handle.running.toNat
      rw [begun_note, finishes_note]
      show (s.begun ++ []).length = s.finishes + 0 + s.handle.running.toNat
      rw [List.append_nil, Nat.add_zero, hs.begun_length]
    update_eq := by
      show none = ((note _ .taken).unread.map Prod.snd).max?
      rw [unread_note]
      rfl
    evaluationCalled := fun he => by
      refine (hs.evaluationCalled he).mono id ?_ ?_ fun _ => id
      · exact fun hcalled => absurd (hw.symm.trans hcalled) nofun
      · show (note _ .taken).accepted = s.accepted
        rw [accepted_note]
        exact List.append_nil _
    updateCalled := by
      refine Or.inr (Or.inr ?_)
      show ∀ c ∈ (note _ .taken).unread, _
      rw [unread_note]
      exact nofun }

/-- An evaluation that waits is the last accepted one, and none is at work. -/
theorem Inv.begin (hs : Inv s) (hw : s.watch = .evaluationCalled) {e : Evaluation}
    (hpending : s.handle.pending = some e) :
    Inv { (s.withHandle { s.handle with pending := none, running := true }).note (.begun e) with
      watch := .evaluationTaken e } := by
  have hrunning : s.handle.running = false := by
    cases hr : s.handle.running with
    | false => rfl
    | true => exact absurd (hpending.symm.trans (hs.exclusive hr)) nofun
  exact { hs with
    busy := rfl
    looking := fun _ => hs.looking (by rw [hw]; nofun)
    exclusive := fun _ => rfl
    accepted_eq := by
      show (note _ (.begun e)).accepted.map Prod.snd = (note _ (.begun e)).begun ++ []
      rw [accepted_note, begun_note]
      show (s.accepted ++ []).map Prod.snd = s.begun ++ [e] ++ []
      rw [List.append_nil, List.append_nil, hs.accepted_eq, hpending]
      rfl
    begun_length := by
      show (note _ (.begun e)).begun.length = (note _ (.begun e)).finishes + 1
      rw [begun_note, finishes_note]
      show (s.begun ++ [e]).length = s.finishes + 0 + 1
      rw [List.length_append, hs.begun_length, hrunning]
      rfl
    update_eq := by
      show s.handle.update = ((note _ (.begun e)).unread.map Prod.snd).max?
      rw [unread_note]
      exact hs.update_eq
    -- the wake-up was used up, and there is nothing left that needs one
    evaluationCalled := nofun
    updateCalled := hs.updateCalled.mono id
      (fun hcalled => absurd (hw.symm.trans hcalled) nofun) (unread_note ..) fun _ => id }

theorem Inv.look (hs : Inv s) (hidle : s.worker.phase = .idle) (d : Shared) : Inv (s.look d) := by
  have hbusy := hs.busy
  rw [hidle] at hbusy
  cases hw : s.watch with
  | asleep =>
      rw [hw] at hbusy
      cases hreason : s.handle.reason s.root with
      | some r =>
          have hstopped : s.handle.isStopped s.root = true := by
            rw [Handle.isStopped, hreason]
            rfl
          rw [look_of_stopped d hw hreason]
          exact hs.advance hw nofun nofun (Worker.keeps_onStop hbusy hstopped r)
      | none =>
          rw [look_of_unstopped d hw hreason]
          exact hs.withWatch hidle hw nofun nofun rfl rfl
  | unstopped =>
      by_cases hpermit : s.handle.updatePermit = true
      · rw [look_of_updatePermit d hw hpermit]
        exact hs.takeUpdatePermit hw
      · rw [look_of_no_updatePermit d hw hpermit]
        exact hs.withWatch hidle hw nofun nofun rfl rfl
  | noUpdate =>
      by_cases hpermit : s.handle.evaluationPermit = true
      · rw [look_of_evaluationPermit d hw hpermit]
        exact hs.takeEvaluationPermit hw
      · rw [look_of_no_permit d hw hpermit]
        exact hs.withWatch hidle hw nofun nofun rfl rfl
  | updateCalled =>
      rw [look_of_updateCalled d hw rfl]
      exact hs.takeUpdate hw
  | updateTaken version =>
      rw [hw] at hbusy
      rw [look_of_updateTaken d hw]
      exact hs.advance hw nofun nofun (Worker.keeps_onUpdate hbusy hidle version)
  | evaluationCalled =>
      cases hpending : s.handle.pending with
      | some e =>
          rw [look_of_pending d hw hpending]
          exact hs.begin hw hpending
      | none =>
          rw [look_of_no_pending d hw hpending]
          exact hs.withWatch hidle hw (fun _ => hpending) nofun rfl rfl
  | evaluationTaken e =>
      rw [hw] at hbusy
      rw [look_of_evaluationTaken d hw]
      exact hs.advance hw nofun nofun (Worker.keeps_onEvaluation hbusy e)

theorem Inv.routine (hs : Inv s) {input : Input} {d : Shared} {t : Desk}
    (h : s.routine? input d = some t) : Inv t := by
  rcases routine?_cases h with ⟨hidle, rfl⟩ | ⟨hidle, w, d', hstep, rfl⟩
  · exact hs.look hidle d
  · have hasleep := hs.asleep hidle
    have hbusy := hs.busy
    rw [hasleep] at hbusy
    exact hs.advance hasleep nofun nofun (Worker.keeps_step hidle hbusy hs.leaving hstep)

/-! ## Runs -/

/-- A stop signal that fires changes nothing but the signal. -/
theorem Inv.fire (hs : Inv s) (r : StopReason) : Inv (s.withHandle (s.handle.fire r).2) := by
  unfold Handle.fire
  split
  · exact hs
  · exact { hs with
      leaving := fun _ => rfl }

theorem Inv.fireRoot (hs : Inv s) (r : StopReason) : Inv { s with root := s.root.or (some r) } :=
  { hs with
    leaving := fun _ => by
      show (s.handle.stop.or (s.root.or (some r))).isSome = true
      simp }

/-- A wake-up for nothing does no harm. -/
theorem Inv.strayUpdate (hs : Inv s) : Inv (s.withHandle s.handle.callUpdate) :=
  { hs with
    updateCalled := Or.inl rfl }

theorem Inv.strayEvaluation (hs : Inv s) : Inv (s.withHandle s.handle.callEvaluation) :=
  { hs with
    evaluationCalled := fun _ => Or.inl rfl }

/-- **Every move keeps the protocol.** -/
theorem inv_step (hs : Inv s) {m : Move} {t : Desk} (h : s.step? m = some t) : Inv t := by
  cases m with
  | offer e =>
      cases h
      exact hs.call _
  | post version =>
      cases h
      exact hs.call _
  | proceed n =>
      obtain ⟨c, hc, ht⟩ := Option.bind_eq_some_iff.1 h
      exact hs.take hc ht
  | fire r =>
      cases h
      exact hs.fire r
  | fireRoot r =>
      cases h
      exact hs.fireRoot r
  | routine input d => exact hs.routine h
  | strayUpdate =>
      cases h
      exact hs.strayUpdate
  | strayEvaluation =>
      cases h
      exact hs.strayEvaluation

theorem inv_run (k : RuleKey) {ms : List Move} (h : (new k).run? ms = some s) : Inv s := by
  induction ms using List.reverseRecOn generalizing s with
  | nil =>
      cases h
      exact inv_new k
  | append_singleton ms m ih =>
      rw [run?_snoc] at h
      obtain ⟨t, ht, hstep⟩ := Option.bind_eq_some_iff.1 h
      exact inv_step (ih ht) hstep

end Desk

end Vigil
