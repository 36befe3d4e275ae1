import Mathlib.Algebra.GroupWithZero.Nat
import Vigil.Proofs.Store.Restart

/-!
# Calls in progress

A call on the instances does what it does to the cache at once, and then waits for the store:
once for each row that is to be deleted or saved. Between two answers other calls begin and go
on (`Traffic`). What a call will return and which rows are due is settled when it begins
(`Shared.begin_frame`). An answer ticks off one row and does nothing else (`Traffic.answer_cases`),
so every call comes to its end if the store goes on answering (`Traffic.exists_over`).
-/

namespace Vigil

/-- What a call returns. -/
inductive Reply where
  | nothing
  | instances (is : List Instance)
  | count (n : Nat)
  /-- A moment left the calendar, or a window had no room. -/
  | failed

/-- What a call that has begun has yet to do, and what it will return. -/
structure Due where
  reply : Reply := .nothing
  /-- The instances whose rows are yet to be deleted. -/
  dropping : List Instance := []
  /-- The instances whose rows are yet to be saved. -/
  saving : List Instance := []

namespace Due

/-- What is due after a round. -/
def ofRound (answer : Option Round) : Due :=
  answer.elim { reply := .failed } fun rd =>
    { reply := .instances rd.processed, dropping := rd.stale }

/-- What is due when instances were removed. -/
def ofRemoved (removed : List Instance) : Due :=
  { reply := .instances removed, dropping := removed }

end Due

/-- A call that has begun. -/
inductive OpenCall where
  | evicting (processed : List Instance) (e : Eviction)
  | erasing (e : Erasure)
  | flushing (f : Flush)
  /-- A call that does not need the store. -/
  | immediate (reply : Reply)

namespace OpenCall

def due : OpenCall → Due
  | evicting processed e => { reply := .instances processed, dropping := e.stale }
  | erasing e => { reply := .instances e.removed, dropping := e.waiting }
  | flushing f => { reply := .count (f.saved + f.waiting.length), saving := f.waiting }
  | immediate reply => { reply }

/-- Nothing is waited for: the call returns. -/
def isOver (c : OpenCall) : Bool := c.due.dropping.isEmpty && c.due.saving.isEmpty

/-- The store has answered, for the first row or, if the rows are erased all at once, for the
one numbered `which`. -/
def answer (c : OpenCall) (which : Nat) (d : Shared) : OpenCall × Shared :=
  match c with
  | evicting processed e => (evicting processed (e.answer true d).1, (e.answer true d).2)
  | erasing e => (erasing (e.answer which true d).1, (e.answer which true d).2)
  | flushing f => (flushing (f.answer true d).1, (f.answer true d).2)
  | immediate reply => (immediate reply, d)

end OpenCall

namespace StateCall

/-- What is due once a call has begun, and the cache that it leaves then. -/
def enter (settings : StateSettings) (now : Moment) : StateCall → Cache → Due × Cache
  | .setClock _, c => ({}, c)
  | .process r vs extra, c =>
    (.ofRound (c.round settings now r vs extra).1, (c.round settings now r vs extra).2)
  | .markSent sent, c => ({}, c.markSent sent)
  | .persist, c => ({ reply := .count c.snapshot.length, saving := c.snapshot }, c)
  | .reset k _, c => (.ofRemoved (c.removeRule k).1, (c.removeRule k).2)

/-- Only a call that saves everything saves. -/
theorem mem_saving_enter {settings : StateSettings} {now : Moment} {c : StateCall} {cache : Cache}
    {i : Instance} (h : i ∈ (c.enter settings now cache).1.saving) :
    c = .persist ∧ i ∈ cache.snapshot := by
  cases c with
  | persist => exact ⟨rfl, h⟩
  | process r vs extra =>
      unfold enter at h
      dsimp only at h
      cases hround : (cache.round settings now r vs extra).1 with
      | none =>
          rw [hround] at h
          exact absurd h List.not_mem_nil
      | some rd =>
          rw [hround] at h
          exact absurd h List.not_mem_nil
  | _ => exact absurd h List.not_mem_nil

/-- The clock after the call. -/
def clock (now : Moment) : StateCall → Moment
  | .setClock t => t
  | _ => now

end StateCall

theorem PromptStore.count_flush (is : List Instance) (saved : Nat) (d : Shared) :
    (reliable.flush is saved d).1 = saved + is.length := by
  induction is generalizing saved d with
  | nil => rfl
  | cons i is ih =>
      refine (ih (saved + 1) (d.saveRow i true)).trans ?_
      rw [List.length_cons, Nat.add_assoc, Nat.add_comm 1]

namespace Shared

open PromptStore (reliable same_round same_erase same_flush count_flush)

/-- Begins a call, up to where it needs the store. -/
def begin (d : Shared) : StateCall → OpenCall × Shared
  | .setClock clock => (.immediate .nothing, { d with clock })
  | .process r vs extra =>
    match d.round r vs extra with
    | (none, d) => (.immediate .failed, d)
    | (some (processed, e), d) => (.evicting processed e, d)
  | .markSent sent => (.immediate .nothing, { d with cache := d.cache.markSent sent })
  | .persist => (.flushing d.flush, d)
  | .reset k rule => (.erasing (d.erase k rule).1, (d.erase k rule).2)

/-- What a call returns if the store answers at once. -/
def replyTo (d : Shared) : StateCall → Reply
  | .process r vs extra => (reliable.round d r vs extra).1.elim .failed .instances
  | .persist => .count (reliable.persist d).1
  | .reset k rule => .instances (reliable.reset d k rule).1
  | _ => .nothing

/-- What calls return that are made one after the other. -/
def replies (d : Shared) : List StateCall → List Reply
  | [] => []
  | c :: cs => d.replyTo c :: (d.call c).replies cs

/-- **The beginning.** With it the reply and the rows are settled; in the cache the call is
done. -/
theorem begin_frame (d : Shared) (c : StateCall) :
    (d.begin c).1.due = (c.enter d.state d.clock d.cache).1 ∧
      Same (d.begin c).2
        { d with cache := (c.enter d.state d.clock d.cache).2, clock := c.clock d.clock } := by
  cases c with
  | setClock t => exact ⟨rfl, rfl, rfl, rfl, rfl⟩
  | process r vs extra =>
      unfold begin Shared.round StateCall.enter
      dsimp only
      cases d.cache.round d.state d.clock r vs extra with
      | mk answer cache =>
      cases answer with
      | none => exact ⟨rfl, rfl, rfl, rfl, rfl⟩
      | some rd =>
          exact ⟨rfl, isFrame_same.foldl (f := fun d c => d.annotate (Change.note r c))
            (fun _ _ => ⟨rfl, rfl, rfl, rfl⟩) _ _⟩
  | markSent sent => exact ⟨rfl, rfl, rfl, rfl, rfl⟩
  | persist =>
      refine ⟨?_, rfl, rfl, rfl, rfl⟩
      show ({ reply := .count (0 + d.cache.snapshot.length), saving := d.cache.snapshot } : Due) =
        { reply := .count d.cache.snapshot.length, saving := d.cache.snapshot }
      rw [Nat.zero_add]
  | reset k rule => exact ⟨rfl, rfl, rfl, rfl, rfl⟩

/-- **A whole call.** If the store answers at once, what was due is what the call does. -/
theorem call_frame (d : Shared) (c : StateCall) :
    d.replyTo c = (c.enter d.state d.clock d.cache).1.reply ∧
      Same (d.call c) { d with
        cache := (c.enter d.state d.clock d.cache).2
        store := (d.store.deleteAll (c.enter d.state d.clock d.cache).1.dropping).saveAll
          (c.enter d.state d.clock d.cache).1.saving
        clock := c.clock d.clock } := by
  cases c with
  | setClock t => exact ⟨rfl, rfl, rfl, rfl, rfl⟩
  | process r vs extra =>
      cases h : d.cache.round d.state d.clock r vs extra with
      | mk answer cache =>
      have hsame := same_round h
      have henter : (StateCall.process r vs extra).enter d.state d.clock d.cache =
          (.ofRound answer, cache) := by
        unfold StateCall.enter
        dsimp only
        rw [h]
      have hreply : (reliable.round d r vs extra).1 = answer.map Round.processed := by
        unfold PromptStore.round Shared.round
        rw [h]
        cases answer <;> rfl
      rw [henter]
      refine ⟨?_, ?_⟩
      · show (reliable.round d r vs extra).1.elim Reply.failed Reply.instances = _
        rw [hreply]
        cases answer <;> rfl
      · cases answer with
        | none => exact hsame
        | some rd => exact hsame
  | markSent sent => exact ⟨rfl, rfl, rfl, rfl, rfl⟩
  | persist =>
      refine ⟨?_, same_flush _ 0 d⟩
      show Reply.count (reliable.flush d.cache.snapshot 0 d).1 = .count d.cache.snapshot.length
      rw [count_flush, Nat.zero_add]
  | reset k rule =>
      exact ⟨rfl, same_erase rule _ (d.cache.removeRule k).1
        { d with cache := (d.cache.removeRule k).2 }⟩

end Shared

/-! ## Answers -/

open Shared (Same same_refl isFrame_same)

/-- An answer takes the instance from those that are waited for, and its row from the store. -/
theorem Erasure.answer_of_getElem? {e : Erasure} {which : Nat} {i : Instance}
    (h : e.waiting[which]? = some i) (d : Shared) :
    (e.answer which true d).1 = { e with waiting := e.waiting.eraseIdx which } ∧
      Same (e.answer which true d).2
        { d with store := d.store.delete i.org i.ruleUid i.labels.id } := by
  have hdelete : Same (d.deleteRow i true)
      { d with store := d.store.delete i.org i.ruleUid i.labels.id } := ⟨rfl, rfl, rfl, rfl⟩
  unfold answer
  rw [h]
  dsimp only
  split
  · exact ⟨rfl, (isFrame_same.close _ _).trans hdelete⟩
  · exact ⟨rfl, hdelete⟩

namespace OpenCall

/-- One row that was due is deleted or saved. -/
inductive Ticks (c c' : OpenCall) (d d' : Shared) : Prop where
  | deleted {i : Instance} {rest : List Instance} (hdropping : c.due.dropping.Perm (i :: rest))
    (hdue : c'.due = { c.due with dropping := rest })
    (hsame : Same d' { d with store := d.store.delete i.org i.ruleUid i.labels.id })
  | saved {i : Instance} {rest : List Instance} (hsaving : c.due.saving = i :: rest)
    (hdue : c'.due = { c.due with saving := rest })
    (hsame : Same d' { d with store := d.store.save (.ofInstance i) })

/-- An answer that nothing is due for is none; any other ticks off a row. -/
theorem answer_cases (c : OpenCall) (which : Nat) (d : Shared) :
    (which = 0 → c.isOver = true) ∧ c.answer which d = (c, d) ∨
      c.Ticks (c.answer which d).1 d (c.answer which d).2 := by
  cases c with
  | evicting processed e =>
      obtain ⟨r, now, stale⟩ := e
      cases stale with
      | nil => exact Or.inl ⟨fun _ => rfl, rfl⟩
      | cons i stale =>
          exact Or.inr (.deleted (List.Perm.refl _) rfl
            ((isFrame_same.annotateClosing _ r now i).trans ⟨rfl, rfl, rfl, rfl⟩))
  | erasing e =>
      cases hi : e.waiting[which]? with
      | none =>
          refine Or.inl ⟨?_, ?_⟩
          · rintro rfl
            rw [List.getElem?_eq_none_iff, Nat.le_zero, List.length_eq_zero_iff] at hi
            show (e.waiting.isEmpty && true) = true
            rw [hi]
            rfl
          · unfold answer Erasure.answer
            dsimp only
            rw [hi]
      | some i =>
          obtain ⟨hrest, hdeleted⟩ := Erasure.answer_of_getElem? hi d
          obtain ⟨hlt, rfl⟩ := List.getElem?_eq_some_iff.1 hi
          refine Or.inr (.deleted (List.getElem_cons_eraseIdx_perm hlt).symm ?_ hdeleted)
          show (erasing (e.answer which true d).1).due = _
          rw [hrest]
          rfl
  | flushing f =>
      obtain ⟨waiting, saved⟩ := f
      cases waiting with
      | nil => exact Or.inl ⟨fun _ => rfl, rfl⟩
      | cons i waiting =>
          refine Or.inr (.saved rfl ?_ ⟨rfl, rfl, rfl, rfl⟩)
          show ({ reply := .count (saved + 1 + waiting.length), saving := waiting } : Due) =
            { reply := .count (saved + (waiting.length + 1)), saving := waiting }
          rw [Nat.add_assoc, Nat.add_comm 1]
  | immediate reply => exact Or.inl ⟨fun _ => rfl, rfl⟩

/-- How many answers of the store a call waits for. -/
def size (c : OpenCall) : Nat := c.due.dropping.length + c.due.saving.length

variable {c c' : OpenCall} {d d' : Shared}

theorem Ticks.reply_eq (h : c.Ticks c' d d') : c'.due.reply = c.due.reply := by
  cases h with
  | deleted _ hdue _ => rw [hdue]
  | saved _ hdue _ => rw [hdue]

theorem Ticks.saving_suffix (h : c.Ticks c' d d') : c'.due.saving <:+ c.due.saving := by
  cases h with
  | deleted _ hdue _ => rw [hdue]
  | saved hsaving hdue _ =>
      rw [hdue, hsaving]
      exact List.suffix_cons _ _

theorem Ticks.size_lt (h : c.Ticks c' d d') : c'.size < c.size := by
  unfold size
  cases h with
  | deleted hdropping hdue _ =>
      rw [hdue, hdropping.length_eq, List.length_cons]
      exact Nat.add_lt_add_right (Nat.lt_succ_self _) _
  | saved hsaving hdue _ =>
      rw [hdue, hsaving, List.length_cons]
      exact Nat.add_lt_add_left (Nat.lt_succ_self _) _

end OpenCall

/-! ## Calls side by side -/

/-- Calls in the order in which they began, each with its caller. One that has returned stays. -/
structure Traffic (ι : Type) where
  shared : Shared
  calls : List (ι × OpenCall) := []

/-- What happens next: a call begins, or the store answers the call numbered `n`. -/
inductive Move (ι : Type) where
  | begin (caller : ι) (c : StateCall)
  | answer (n which : Nat)

/-- The calls that begin, in order. -/
def Move.begun {ι : Type} (moves : List (Move ι)) : List (ι × StateCall) :=
  moves.filterMap fun
    | .begin caller c => some (caller, c)
    | .answer _ _ => none

theorem Move.begun_snoc {ι : Type} (moves : List (Move ι)) (m : Move ι) :
    begun (moves ++ [m]) = begun moves ++ begun [m] := List.filterMap_append

namespace Traffic

variable {ι : Type}

def step (t : Traffic ι) : Move ι → Traffic ι
  | .begin caller c =>
    { shared := (t.shared.begin c).2, calls := t.calls ++ [(caller, (t.shared.begin c).1)] }
  | .answer n which =>
    match t.calls[n]? with
    | some (caller, c) =>
      { shared := (c.answer which t.shared).2
        calls := t.calls.set n (caller, (c.answer which t.shared).1) }
    | none => t

def run (t : Traffic ι) (moves : List (Move ι)) : Traffic ι := moves.foldl step t

theorem run_snoc (t : Traffic ι) (moves : List (Move ι)) (m : Move ι) :
    t.run (moves ++ [m]) = (t.run moves).step m := by
  unfold run
  rw [List.foldl_append]
  rfl

end Traffic

namespace Shared

variable {ι : Type}

/-- Where the moves lead if no call has begun before. -/
def traffic (d : Shared) (moves : List (Move ι)) : Traffic ι := Traffic.run { shared := d } moves

theorem traffic_snoc (d : Shared) (moves : List (Move ι)) (m : Move ι) :
    d.traffic (moves ++ [m]) = (d.traffic moves).step m := Traffic.run_snoc _ _ _

end Shared

namespace Traffic

variable {ι : Type}

/-- Every call has returned. -/
def isOver (t : Traffic ι) : Bool := t.calls.all fun e => e.2.isOver

/-- The instances whose rows some call has yet to delete. -/
def dropping (t : Traffic ι) : List Instance := t.calls.flatMap fun e => e.2.due.dropping

/-- What each call returns, or will return. -/
def replies (t : Traffic ι) : List (ι × Reply) := t.calls.map fun e => (e.1, e.2.due.reply)

/-- No row is due once all calls have returned. -/
theorem dropping_eq_nil {t : Traffic ι} (h : t.isOver = true) : t.dropping = [] := by
  refine List.flatMap_eq_nil_iff.2 fun e he => ?_
  have hover := List.all_eq_true.1 h e he
  exact List.isEmpty_iff.1 (Bool.and_eq_true_iff.1 hover).1

theorem dropping_begin (t : Traffic ι) (caller : ι) (c : StateCall) :
    (t.step (.begin caller c)).dropping = t.dropping ++ (t.shared.begin c).1.due.dropping := by
  unfold dropping step
  rw [List.flatMap_append, List.flatMap_singleton]

theorem set_of_getElem? {l : List α} {n : Nat} {x : α} (h : l[n]? = some x) : l.set n x = l := by
  obtain ⟨hlt, rfl⟩ := List.getElem?_eq_some_iff.1 h
  exact List.set_getElem_self hlt

/-- The entry at a place, and the others. -/
theorem exists_perm_set {l : List α} {n : Nat} {x : α} (h : l[n]? = some x) :
    ∃ rest, l.Perm (x :: rest) ∧ ∀ y, (l.set n y).Perm (y :: rest) := by
  obtain ⟨hlt, rfl⟩ := List.getElem?_eq_some_iff.1 h
  exact ⟨l.eraseIdx n, (List.getElem_cons_eraseIdx_perm hlt).symm,
    List.set_perm_cons_eraseIdx hlt⟩

/-- An answer to a call that nothing is due for is none. -/
theorem answer_cases (t : Traffic ι) (n which : Nat) :
    t.step (.answer n which) = t ∨
      ∃ caller c c', t.calls[n]? = some (caller, c) ∧
        (t.step (.answer n which)).calls = t.calls.set n (caller, c') ∧
        c.Ticks c' t.shared (t.step (.answer n which)).shared := by
  unfold step
  dsimp only
  cases hn : t.calls[n]? with
  | none => exact Or.inl rfl
  | some e =>
      obtain ⟨caller, c⟩ := e
      dsimp only
      rcases c.answer_cases which t.shared with ⟨-, hsame⟩ | hticks
      · rw [hsame, set_of_getElem? hn]
        exact Or.inl rfl
      · exact Or.inr ⟨caller, c, _, rfl, rfl, hticks⟩

theorem replies_answer (t : Traffic ι) (n which : Nat) :
    (t.step (.answer n which)).replies = t.replies := by
  rcases t.answer_cases n which with hsame | ⟨caller, c, c', hn, hcalls, hticks⟩
  · rw [hsame]
  · unfold replies
    rw [hcalls, List.map_set, hticks.reply_eq]
    exact set_of_getElem? (by rw [List.getElem?_map, hn]; rfl)

/-- Only the call that is answered gives up a row. -/
theorem dropping_set {t t' : Traffic ι} {n : Nat} {caller : ι} {c c' : OpenCall}
    (hn : t.calls[n]? = some (caller, c)) (hcalls : t'.calls = t.calls.set n (caller, c'))
    (gone : List Instance) (hgone : c.due.dropping.Perm (gone ++ c'.due.dropping)) :
    t.dropping.Perm (gone ++ t'.dropping) := by
  obtain ⟨rest, hperm, hset⟩ := exists_perm_set hn
  unfold dropping
  rw [hcalls]
  refine (hperm.flatMap_right _).trans ((hgone.append_right _).trans ?_)
  rw [List.append_assoc]
  exact ((hset (caller, c')).flatMap_right fun e => e.2.due.dropping).symm.append_left gone

/-- How many answers of the store are waited for. -/
def size (t : Traffic ι) : Nat := (t.calls.map fun e => e.2.size).sum

theorem size_lt_of_ticks {t t' : Traffic ι} {n : Nat} {caller : ι} {c c' : OpenCall}
    (hn : t.calls[n]? = some (caller, c)) (hcalls : t'.calls = t.calls.set n (caller, c'))
    (hticks : c.Ticks c' t.shared t'.shared) : t'.size < t.size := by
  obtain ⟨rest, hperm, hset⟩ := exists_perm_set hn
  have hsize : t.size = c.size + (rest.map fun e => e.2.size).sum :=
    (hperm.map _).sum_nat.trans List.sum_cons
  have hsize' : t'.size = c'.size + (rest.map fun e => e.2.size).sum := by
    unfold size
    rw [hcalls]
    exact ((hset _).map _).sum_nat.trans List.sum_cons
  rw [hsize, hsize']
  exact Nat.add_lt_add_right hticks.size_lt _

/-- **Every call ends.** From any point on, answers of the store are all it takes. -/
theorem exists_over (t : Traffic ι) :
    ∃ moves, Move.begun moves = [] ∧ (t.run moves).isOver = true := by
  induction hsize : t.size using Nat.strong_induction_on generalizing t with
  | _ size ih =>
  cases hover : t.isOver with
  | true => exact ⟨[], rfl, hover⟩
  | false =>
      obtain ⟨⟨caller, c⟩, hc, hopen⟩ := List.all_eq_false.1 hover
      obtain ⟨n, hlt, hn⟩ := List.getElem_of_mem hc
      have hn : t.calls[n]? = some (caller, c) := List.getElem?_eq_some_iff.2 ⟨hlt, hn⟩
      have hless : (t.step (.answer n 0)).size < t.size := by
        unfold step
        dsimp only
        rw [hn]
        rcases c.answer_cases 0 t.shared with ⟨hdone, -⟩ | hticks
        · exact absurd (hdone rfl) hopen
        · exact size_lt_of_ticks hn rfl hticks
      obtain ⟨moves, hbegun, hend⟩ := ih _ (hsize ▸ hless) _ rfl
      exact ⟨.answer n 0 :: moves, hbegun, hend⟩

end Traffic

end Vigil
