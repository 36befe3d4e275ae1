import Vigil.Proofs.Engine.Routine

/-!
# Calls between the steps of a routine

An offer, a version that is sent and a look of the routine at its mailboxes each
take several steps: the stop signal is read, a mailbox is locked, a wake-up is left
or taken. A desk (`Desk`) is a handle with its routine and all calls to the handle,
each of them somewhere between two such steps, and any of them may be the next to
go on (`Desk.step?`). What others do to the data that routines share may happen at
any time, so every step of the routine finds that data as it pleases. A routine that
has been woken and has yet to look keeps the next wake-up for later, so there may
also be a wake-up for nothing.

Without others in between, the steps of one call are the call
(`Desk.exists_steps_offer`, `Desk.exists_steps_post`), and the steps of one look
are the look (`Desk.looks_of_wake`).
-/

namespace Vigil

/-! ## Calls -/

namespace Handle

/-- Puts an evaluation into its mailbox, unless the routine is busy. -/
def place? (h : Handle) (e : Evaluation) : Option Handle :=
  if h.running || h.pending.isSome then none else some { h with pending := some e }

/-- Leaves a wake-up for the evaluation mailbox. At most one is kept. -/
def callEvaluation (h : Handle) : Handle := { h with evaluationPermit := true }

/-- Puts a version into its mailbox; of two the higher one stays. -/
def store (h : Handle) (version : Int) : Handle :=
  { h with update := some (h.update.elim version (max · version)) }

/-- Leaves a wake-up for the update mailbox. -/
def callUpdate (h : Handle) : Handle := { h with updatePermit := true }

theorem place?_eq (h : Handle) (e : Evaluation) :
    h.place? e = if h.pending = none ∧ h.running = false then some { h with pending := some e }
      else none := by
  unfold place?
  cases h.running <;> cases h.pending <;> rfl

theorem offer_eq (h : Handle) (root : Option StopReason) (e : Evaluation) :
    h.offer root e = if h.isStopped root then (.error .routineStopped, h)
      else (h.place? e).elim (.ok (some e), h) fun h => (.ok none, h.callEvaluation) := by
  unfold offer place?
  by_cases hbusy : (h.running || h.pending.isSome) = true
  · rw [if_pos hbusy, if_pos hbusy]
    rfl
  · rw [if_neg hbusy, if_neg hbusy]
    rfl

theorem post_eq (h : Handle) (root : Option StopReason) (version : Int) :
    h.post root version = if h.isStopped root then (.error .routineStopped, h)
      else (.ok (), (h.store version).callUpdate) := by
  unfold post store
  cases h.update <;> rfl

end Handle

/-- A call to a handle, by the step it takes next, and at the end by its answer. -/
inductive Call where
  /-- Reads the stop signal before it offers. -/
  | offer (e : Evaluation)
  | place (e : Evaluation)
  | callEvaluation
  | offered (answer : Except EngineError (Option Evaluation))
  /-- Reads the stop signal before it sends. -/
  | post (version : Int)
  | store (version : Int)
  | callUpdate
  | posted (answer : Except EngineError Unit)

def Call.isAnswered : Call → Bool
  | .offered _ | .posted _ => true
  | _ => false

/-- How far the routine got with a look at its mailboxes. -/
inductive Watch where
  /-- Waiting, or about to start over with the stop signal. -/
  | asleep
  | unstopped
  | noUpdate
  /-- Took a wake-up for the update mailbox. -/
  | updateCalled
  | updateTaken (version : Int)
  /-- Took a wake-up for the evaluation mailbox. -/
  | evaluationCalled
  | evaluationTaken (e : Evaluation)

/-- What happened at a mailbox; calls go by their number. -/
inductive Notice where
  | accepted (call : Nat) (e : Evaluation)
  | begun (e : Evaluation)
  | finished
  | stored (call : Nat) (version : Int)
  | taken

/-- A handle with its routine, all calls to it in the order they were made, and what
happened so far. -/
structure Desk where
  worker : Worker
  watch : Watch := .asleep
  root : Option StopReason := none
  calls : List Call := []
  past : List Notice := []

namespace Desk

/-- A new handle whose routine has just started. -/
def new (k : RuleKey) : Desk := { worker := .new k }

def handle (s : Desk) : Handle := s.worker.handle

def isStopped (s : Desk) : Bool := s.handle.isStopped s.root

/-- The handle becomes `h`. -/
def withHandle (s : Desk) (h : Handle) : Desk := { s with worker := { s.worker with handle := h } }

/-- Call `n` goes on as `c`. -/
def withCall (s : Desk) (n : Nat) (c : Call) : Desk := { s with calls := s.calls.set n c }

def note (s : Desk) (event : Notice) : Desk := { s with past := s.past ++ [event] }

/-- What call `n` makes of the desk if its next step is that of `c`. -/
def take? (s : Desk) (n : Nat) : Call → Option Desk
  | .offer e =>
    some (s.withCall n (if s.isStopped then .offered (.error .routineStopped) else .place e))
  | .place e =>
    match s.handle.place? e with
    | some h => some (((s.withHandle h).withCall n .callEvaluation).note (.accepted n e))
    | none => some (s.withCall n (.offered (.ok (some e))))
  | .callEvaluation =>
    some ((s.withHandle s.handle.callEvaluation).withCall n (.offered (.ok none)))
  | .post version =>
    some (s.withCall n (if s.isStopped then .posted (.error .routineStopped) else .store version))
  | .store version =>
    some (((s.withHandle (s.handle.store version)).withCall n .callUpdate).note (.stored n version))
  | .callUpdate => some ((s.withHandle s.handle.callUpdate).withCall n (.posted (.ok ())))
  | .offered _ | .posted _ => none

/-- The next step of call `n`. -/
def proceed? (s : Desk) (n : Nat) : Option Desk := s.calls[n]?.bind (s.take? n)

/-! ## The routine -/

/-- The routine has come to `w`, and waits or goes on there. -/
def advance (s : Desk) (w : Worker) : Desk :=
  { s with
    worker := w
    watch := .asleep
    past := s.past ++ if s.handle.running && !w.handle.running then [.finished] else [] }

/-- One step of a look at the mailboxes. Whoever finds neither a stop nor a wake-up
sleeps until there is one. -/
def look (s : Desk) (d : Shared) : Desk :=
  match s.watch with
  | .asleep =>
    match s.handle.reason s.root with
    | some r => s.advance (s.worker.onStop r d).1
    | none => { s with watch := .unstopped }
  | .unstopped =>
    if s.handle.updatePermit then
      { s.withHandle { s.handle with updatePermit := false } with watch := .updateCalled }
    else { s with watch := .noUpdate }
  | .noUpdate =>
    if s.handle.evaluationPermit then
      { s.withHandle { s.handle with evaluationPermit := false } with watch := .evaluationCalled }
    else { s with watch := .asleep }
  | .updateCalled =>
    let (update, h) := s.handle.takeUpdate
    { (s.withHandle h).note .taken with watch := update.elim .asleep .updateTaken }
  | .updateTaken version => s.advance (s.worker.onUpdate version d).1
  | .evaluationCalled =>
    match s.handle.begin with
    | (some e, h) => { (s.withHandle h).note (.begun e) with watch := .evaluationTaken e }
    | (none, h) => { s.withHandle h with watch := .asleep }
  | .evaluationTaken e => s.advance (s.worker.onEvaluation e d).1

section

variable {s : Desk} (d : Shared)

theorem look_of_stopped (hw : s.watch = .asleep) {r : StopReason}
    (h : s.handle.reason s.root = some r) :
    s.look d = s.advance (s.worker.onStop r d).1 := by
  simp only [look, hw, h]

theorem look_of_unstopped (hw : s.watch = .asleep) (h : s.handle.reason s.root = none) :
    s.look d = { s with watch := .unstopped } := by
  simp only [look, hw, h]

theorem look_of_updatePermit (hw : s.watch = .unstopped) (h : s.handle.updatePermit = true) :
    s.look d = { s.withHandle { s.handle with updatePermit := false } with
      watch := .updateCalled } := by
  unfold look
  rw [hw]
  exact if_pos h

theorem look_of_no_updatePermit (hw : s.watch = .unstopped) (h : ¬ s.handle.updatePermit = true) :
    s.look d = { s with watch := .noUpdate } := by
  unfold look
  rw [hw]
  exact if_neg h

theorem look_of_updateCalled (hw : s.watch = .updateCalled) {update : Option Int}
    (h : s.handle.update = update) :
    s.look d = { (s.withHandle { s.handle with update := none }).note .taken with
      watch := update.elim .asleep .updateTaken } := by
  simp only [look, hw, Handle.takeUpdate, h]

theorem look_of_updateTaken {version : Int} (hw : s.watch = .updateTaken version) :
    s.look d = s.advance (s.worker.onUpdate version d).1 := by
  simp only [look, hw]

theorem look_of_evaluationPermit (hw : s.watch = .noUpdate)
    (h : s.handle.evaluationPermit = true) :
    s.look d = { s.withHandle { s.handle with evaluationPermit := false } with
      watch := .evaluationCalled } := by
  unfold look
  rw [hw]
  exact if_pos h

theorem look_of_no_permit (hw : s.watch = .noUpdate) (h : ¬ s.handle.evaluationPermit = true) :
    s.look d = { s with watch := .asleep } := by
  unfold look
  rw [hw]
  exact if_neg h

theorem look_of_pending (hw : s.watch = .evaluationCalled) {e : Evaluation}
    (h : s.handle.pending = some e) :
    s.look d = { (s.withHandle { s.handle with pending := none, running := true }).note (.begun e)
      with watch := .evaluationTaken e } := by
  simp only [look, hw, Handle.begin, h]

theorem look_of_no_pending (hw : s.watch = .evaluationCalled) (h : s.handle.pending = none) :
    s.look d = { s with watch := .asleep } := by
  simp only [look, hw, Handle.begin, h]
  rfl

theorem look_of_evaluationTaken {e : Evaluation} (hw : s.watch = .evaluationTaken e) :
    s.look d = s.advance (s.worker.onEvaluation e d).1 := by
  simp only [look, hw]

end

/-- The next step of the routine, if `input` is what it is waiting for. -/
def routine? (s : Desk) (input : Input) (d : Shared) : Option Desk :=
  match s.worker.phase, input with
  | .idle, .wake => some (s.look d)
  | .idle, _ => none
  | _, _ => (s.worker.step? s.root input d).map fun result => s.advance result.1

theorem routine?_idle {s : Desk} (hidle : s.worker.phase = .idle) (d : Shared) :
    s.routine? .wake d = some (s.look d) := by
  unfold routine?
  rw [hidle]

theorem routine?_of_ne_idle {s : Desk} (hidle : s.worker.phase ≠ .idle) (input : Input)
    (d : Shared) : s.routine? input d =
      (s.worker.step? s.root input d).map fun result => s.advance result.1 := by
  unfold routine?
  cases hphase : s.worker.phase with
  | idle => exact absurd hphase hidle
  | _ => rfl

/-- Either the routine looks at its mailboxes, or it goes on with what it is doing. -/
theorem routine?_cases {s t : Desk} {input : Input} {d : Shared}
    (h : s.routine? input d = some t) :
    (s.worker.phase = .idle ∧ t = s.look d) ∨
      (s.worker.phase ≠ .idle ∧ ∃ w d', s.worker.step? s.root input d = some (w, d') ∧
        t = s.advance w) := by
  by_cases hidle : s.worker.phase = .idle
  · left
    refine ⟨hidle, ?_⟩
    unfold routine? at h
    rw [hidle] at h
    cases input with
    | wake => exact (Option.some.inj h).symm
    | _ => exact absurd h nofun
  · right
    rw [routine?_of_ne_idle hidle] at h
    obtain ⟨⟨w, d'⟩, hstep, hw⟩ := Option.map_eq_some_iff.1 h
    exact ⟨hidle, w, d', hstep, hw.symm⟩

/-! ## Runs -/

/-- What can happen at a desk. -/
inductive Move where
  | offer (e : Evaluation)
  | post (version : Int)
  /-- Call `n` takes its next step. -/
  | proceed (n : Nat)
  /-- The stop signal of the handle fires. -/
  | fire (r : StopReason)
  /-- The stop signal for all fires. -/
  | fireRoot (r : StopReason)
  /-- The routine takes its next step. -/
  | routine (input : Input) (d : Shared)
  /-- One wake-up more than there was a need for. -/
  | strayUpdate
  | strayEvaluation

def step? (s : Desk) : Move → Option Desk
  | .offer e => some { s with calls := s.calls ++ [.offer e] }
  | .post version => some { s with calls := s.calls ++ [.post version] }
  | .proceed n => s.proceed? n
  | .fire r => some (s.withHandle (s.handle.fire r).2)
  | .fireRoot r => some { s with root := s.root.or (some r) }
  | .routine input d => s.routine? input d
  | .strayUpdate => some (s.withHandle s.handle.callUpdate)
  | .strayEvaluation => some (s.withHandle s.handle.callEvaluation)

def run? (s : Desk) (ms : List Move) : Option Desk := ms.foldlM step? s

/-- The last step of a run that may fail. -/
theorem foldlM_concat {α β : Type} (f : α → β → Option α) (a : α) (bs : List β) (b : β) :
    (bs ++ [b]).foldlM f a = (bs.foldlM f a).bind (f · b) := by
  rw [List.foldlM_append]
  apply bind_congr
  intro a'
  rw [List.foldlM_cons]
  exact bind_pure _

theorem run?_cons {s t : Desk} {m : Move} (h : s.step? m = some t) (ms : List Move) :
    s.run? (m :: ms) = t.run? ms := by
  unfold run?
  rw [List.foldlM_cons, h]
  rfl

theorem run?_snoc (s : Desk) (ms : List Move) (m : Move) :
    s.run? (ms ++ [m]) = (s.run? ms).bind (·.step? m) :=
  foldlM_concat step? s ms m

/-! ## Calls and looks without others in between -/

/-- One more call, which has come to `c`. -/
def withLast (s : Desk) (c : Call) : Desk := { s with calls := s.calls ++ [c] }

theorem proceed_withLast (s : Desk) (c : Call) :
    (s.withLast c).step? (.proceed s.calls.length) = (s.withLast c).take? s.calls.length c := by
  simp [withLast, step?, proceed?]

theorem withCall_withLast (s : Desk) (c c' : Call) :
    (s.withLast c).withCall s.calls.length c' = s.withLast c' := by
  simp [withLast, withCall]

theorem handle_withLast (s : Desk) (c : Call) : (s.withLast c).handle = s.handle := rfl

/-- The steps of an offer that nothing comes between are the offer. -/
theorem exists_steps_offer (s : Desk) (e : Evaluation) :
    ∃ k past, s.run? (.offer e :: List.replicate k (.proceed s.calls.length)) =
      some { (s.withHandle (s.handle.offer s.root e).2).withLast
        (.offered (s.handle.offer s.root e).1) with past } := by
  have hcall : s.step? (.offer e) = some (s.withLast (.offer e)) := rfl
  have hread : (s.withLast (.offer e)).step? (.proceed s.calls.length) = some (s.withLast
      (if s.handle.isStopped s.root then .offered (.error .routineStopped) else .place e)) :=
    (proceed_withLast ..).trans (congrArg some (withCall_withLast ..))
  rw [Handle.offer_eq]
  by_cases hs : s.handle.isStopped s.root = true
  · rw [if_pos hs] at hread ⊢
    exact ⟨1, s.past, (run?_cons hcall _).trans (run?_cons hread _)⟩
  rw [if_neg hs] at hread ⊢
  -- two steps if the mailbox is taken, three if it is not
  cases hplace : s.handle.place? e with
  | none =>
      have hback : (s.withLast (.place e)).step? (.proceed s.calls.length) =
          some (s.withLast (.offered (.ok (some e)))) := by
        rw [proceed_withLast, take?, handle_withLast, hplace]
        exact congrArg some (withCall_withLast ..)
      exact ⟨2, s.past, (run?_cons hcall _).trans ((run?_cons hread _).trans (run?_cons hback _))⟩
  | some h =>
      have hplaced : (s.withLast (.place e)).step? (.proceed s.calls.length) =
          some (((s.withHandle h).note (.accepted s.calls.length e)).withLast .callEvaluation) := by
        rw [proceed_withLast, take?, handle_withLast, hplace]
        simp [withLast, withCall, withHandle, note]
      have hcalled : (((s.withHandle h).note (.accepted s.calls.length e)).withLast
          .callEvaluation).step? (.proceed s.calls.length) =
            some (((s.withHandle h.callEvaluation).note (.accepted s.calls.length e)).withLast
              (.offered (.ok none))) := by
        refine (proceed_withLast ((s.withHandle h).note (.accepted s.calls.length e)) _).trans ?_
        simp [take?, withLast, withCall, withHandle, note, handle]
      exact ⟨3, _, (run?_cons hcall _).trans ((run?_cons hread _).trans
        ((run?_cons hplaced _).trans (run?_cons hcalled _)))⟩

/-- The steps of a version's sending that nothing comes between are the sending. -/
theorem exists_steps_post (s : Desk) (version : Int) :
    ∃ k past, s.run? (.post version :: List.replicate k (.proceed s.calls.length)) =
      some { (s.withHandle (s.handle.post s.root version).2).withLast
        (.posted (s.handle.post s.root version).1) with past } := by
  have hcall : s.step? (.post version) = some (s.withLast (.post version)) := rfl
  have hread : (s.withLast (.post version)).step? (.proceed s.calls.length) = some (s.withLast
      (if s.handle.isStopped s.root then .posted (.error .routineStopped) else .store version)) :=
    (proceed_withLast ..).trans (congrArg some (withCall_withLast ..))
  rw [Handle.post_eq]
  by_cases hs : s.handle.isStopped s.root = true
  · rw [if_pos hs] at hread ⊢
    exact ⟨1, s.past, (run?_cons hcall _).trans (run?_cons hread _)⟩
  rw [if_neg hs] at hread ⊢
  have hstored : (s.withLast (.store version)).step? (.proceed s.calls.length) =
      some (((s.withHandle (s.handle.store version)).note (.stored s.calls.length version)).withLast
        .callUpdate) := by
    rw [proceed_withLast]
    simp [take?, withLast, withCall, withHandle, note, handle]
  have hcalled : (((s.withHandle (s.handle.store version)).note
      (.stored s.calls.length version)).withLast .callUpdate).step? (.proceed s.calls.length) =
        some (((s.withHandle (s.handle.store version).callUpdate).note
          (.stored s.calls.length version)).withLast (.posted (.ok ()))) := by
    refine (proceed_withLast ((s.withHandle _).note (.stored s.calls.length version)) _).trans ?_
    simp [take?, withLast, withCall, withHandle, note, handle]
  exact ⟨3, _, (run?_cons hcall _).trans ((run?_cons hread _).trans
    ((run?_cons hstored _).trans (run?_cons hcalled _)))⟩

/-- Some steps of a look take `s` to `t`. -/
def Looks (d : Shared) (s t : Desk) : Prop :=
  ∃ k, s.run? (List.replicate k (.routine .wake d)) = some t

theorem Looks.refl (d : Shared) (s : Desk) : Looks d s s := ⟨0, rfl⟩

theorem Looks.head {d : Shared} {s t u : Desk} (hidle : s.worker.phase = .idle)
    (h : s.look d = t) (ht : Looks d t u) : Looks d s u := by
  obtain ⟨k, hk⟩ := ht
  have hlook : s.step? (.routine .wake d) = some t := by
    show s.routine? .wake d = some t
    rw [routine?_idle hidle, h]
  exact ⟨k + 1, (run?_cons hlook _).trans hk⟩

/-- The steps of a look that nothing comes between are the look. -/
theorem looks_of_wake {s : Desk} {d d' : Shared} {w : Worker} (hidle : s.worker.phase = .idle)
    (hasleep : s.watch = .asleep) (h : s.worker.wake? s.root d = some (w, d')) :
    ∃ past, Looks d s { s with worker := w, past } := by
  obtain ⟨worker, watch, root, calls, past⟩ := s
  obtain rfl : watch = .asleep := hasleep
  unfold Worker.wake? at h
  dsimp only at h hidle
  cases hreason : worker.handle.reason root with
  | some r =>
      rw [hreason] at h
      obtain rfl : (worker.onStop r d).1 = w := congrArg Prod.fst (Option.some.inj h)
      exact ⟨_, .head hidle (look_of_stopped d rfl hreason) (.refl ..)⟩
  | none =>
      rw [hreason] at h
      dsimp only at h
      by_cases hupdate : worker.handle.updatePermit = true
      · rw [if_pos hupdate] at h
        cases hversion : worker.handle.update with
        | some version =>
            simp only [Handle.takeUpdate, hversion] at h
            obtain rfl := congrArg Prod.fst (Option.some.inj h)
            apply Exists.intro
            refine .head hidle (look_of_unstopped d rfl hreason) ?_
            refine .head hidle (look_of_updatePermit d rfl hupdate) ?_
            refine .head hidle (look_of_updateCalled d rfl hversion) ?_
            exact .head hidle (look_of_updateTaken d rfl) (.refl ..)
        | none =>
            simp only [Handle.takeUpdate, hversion] at h
            cases h
            apply Exists.intro
            refine .head hidle (look_of_unstopped d rfl hreason) ?_
            refine .head hidle (look_of_updatePermit d rfl hupdate) ?_
            exact .head hidle (look_of_updateCalled d rfl hversion) (.refl ..)
      rw [if_neg hupdate] at h
      by_cases hevaluation : worker.handle.evaluationPermit = true
      · rw [if_pos hevaluation] at h
        cases hpending : worker.handle.pending with
        | some e =>
            simp only [Handle.begin, hpending] at h
            obtain rfl := congrArg Prod.fst (Option.some.inj h)
            apply Exists.intro
            refine .head hidle (look_of_unstopped d rfl hreason) ?_
            refine .head hidle (look_of_no_updatePermit d rfl hupdate) ?_
            refine .head hidle (look_of_evaluationPermit d rfl hevaluation) ?_
            refine .head hidle (look_of_pending d rfl hpending) ?_
            exact .head hidle (look_of_evaluationTaken d rfl) (.refl ..)
        | none =>
            have hbegin : { worker.handle with evaluationPermit := false }.begin =
                (none, { worker.handle with evaluationPermit := false }) := by
              simp only [Handle.begin, hpending]
            rw [hbegin] at h
            cases h
            apply Exists.intro
            refine .head hidle (look_of_unstopped d rfl hreason) ?_
            refine .head hidle (look_of_no_updatePermit d rfl hupdate) ?_
            refine .head hidle (look_of_evaluationPermit d rfl hevaluation) ?_
            exact .head hidle (look_of_no_pending d rfl hpending) (.refl ..)
      · rw [if_neg hevaluation] at h
        cases h

end Desk

end Vigil
