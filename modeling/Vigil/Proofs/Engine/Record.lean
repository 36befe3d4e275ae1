import Vigil.Engine.Calls
import Vigil.Proofs.Store.Rows

/-!
# What calls leave on record

A call to the store ends in an entry of the journal, whether it succeeds or not. An eviction
deletes the row of each stale instance and annotates the alerting ones as it goes
(`PromptStore.evict_eq`); saving everything saves one row for each instance
(`PromptStore.journal_persist`). A row is saved and deleted under one address.
-/

namespace Vigil

namespace Shared

/-- The store has changed, and the journal has new entries. -/
def recorded (d : Shared) (store : Store) (es : List Entry) : Shared :=
  { d with store, journal := d.journal ++ es }

/-- The entry for the deletion of an instance's row. -/
def deletion (d : Shared) (i : Instance) (ok : Bool) : Entry :=
  ⟨d.uptime, .rowDeleted i.ruleKey (Row.ofInstance i).hash ok⟩

/-- The entry for the saving of an instance's row. -/
def saving (d : Shared) (i : Instance) (ok : Bool) : Entry :=
  ⟨d.uptime, .rowSaved i.ruleKey (Row.ofInstance i).hash ok⟩

/-- The entry for an annotation. -/
def noted (d : Shared) (a : Annotation) : Entry := ⟨d.uptime, .annotated a⟩

/-- The entry for the closing annotation that an alerting instance has. -/
def farewell (d : Shared) (r : Rule) (now : Moment) (i : Instance) : List Entry :=
  if i.status = .alerting then [d.noted (.closing r i now)] else []

/-- It tells that the instance went from where it stands to normal. -/
theorem exists_farewell (d : Shared) (r : Rule) (now : Moment) {i : Instance}
    (h : i.status = .alerting) :
    ∃ a : Annotation, a.Says r i.labels now ⟨i.standing, .normal⟩ ∧
      d.farewell r now i = [d.noted a] :=
  ⟨.closing r i now, Annotation.says_closing r i now, if_pos h⟩

theorem recorded_recorded (d : Shared) (s s' : Store) (es es' : List Entry) :
    (d.recorded s es).recorded s' es' = d.recorded s' (es ++ es') := by
  unfold recorded
  rw [List.append_assoc]

theorem recorded_nil (d : Shared) : d.recorded d.store [] = d := by
  unfold recorded
  rw [List.append_nil]

theorem deleteRow_eq (d : Shared) (i : Instance) (ok : Bool) :
    d.deleteRow i ok =
      d.recorded (if ok then d.store.deleteAll [i] else d.store) [d.deletion i ok] := by
  cases ok <;> rfl

theorem annotateClosing_eq (d : Shared) (r : Rule) (now : Moment) (i : Instance) :
    d.annotateClosing r now i = d.recorded d.store (d.farewell r now i) := by
  unfold annotateClosing farewell
  split
  · rfl
  · exact d.recorded_nil.symm

theorem foldl_annotateClosing (d : Shared) (r : Rule) (now : Moment) (is : List Instance) :
    is.foldl (fun d' i => d'.annotateClosing r now i) d =
      d.recorded d.store (is.flatMap (d.farewell r now)) := by
  induction is generalizing d with
  | nil => exact d.recorded_nil.symm
  | cons i is ih =>
      rw [List.foldl_cons, ih, annotateClosing_eq]
      exact d.recorded_recorded ..

theorem foldl_note (d : Shared) (r : Rule) (cs : List Change) :
    cs.foldl (fun d c => d.annotate (c.note r)) d =
      d.recorded d.store (cs.map fun c => d.noted (c.note r)) := by
  induction cs generalizing d with
  | nil => exact d.recorded_nil.symm
  | cons c cs ih =>
      rw [List.foldl_cons, ih]
      exact d.recorded_recorded d.store d.store [d.noted (c.note r)] _

end Shared

theorem Store.deleteAll_filter_cons (s : Store) (f : Instance → Bool) (i : Instance)
    (is : List Instance) :
    s.deleteAll ((i :: is).filter f) =
      (if f i then s.deleteAll [i] else s).deleteAll (is.filter f) := by
  rw [List.filter_cons]
  split
  · rfl
  · rfl

namespace PromptStore

variable {d : Shared} {r : Rule}

/-- The entries for one instance of an eviction. -/
def parting (s : PromptStore) (d : Shared) (r : Rule) (now : Moment) (i : Instance) :
    List Entry :=
  d.deletion i (s.deletes i) :: d.farewell r now i

theorem evict_eq (s : PromptStore) (r : Rule) (now : Moment) (stale : List Instance)
    (d : Shared) :
    s.evict r now stale d = d.recorded (d.store.deleteAll (stale.filter s.deletes))
      (stale.flatMap (s.parting d r now)) := by
  induction stale generalizing d with
  | nil => exact d.recorded_nil.symm
  | cons i stale ih =>
      have hone : (Eviction.answer ⟨r, now, i :: stale⟩ (s.deletes i) d).2 =
          d.recorded (if s.deletes i then d.store.deleteAll [i] else d.store)
            (s.parting d r now i) := by
        unfold Eviction.answer
        dsimp only
        rw [Shared.annotateClosing_eq, Shared.deleteRow_eq]
        exact d.recorded_recorded ..
      rw [evict, ih, hone, Store.deleteAll_filter_cons]
      exact d.recorded_recorded ..

/-- What a round leaves that does not fail. -/
theorem round_eq (s : PromptStore) {vs : List Verdict} {extra : Labels} {rd : Round} {c' : Cache}
    (h : d.cache.round d.state d.clock r vs extra = (some rd, c')) :
    s.round d r vs extra = (some rd.processed,
      { d with cache := c' }.recorded (d.store.deleteAll (rd.stale.filter s.deletes))
        ((rd.changes.map fun c => d.noted (Change.note r c)) ++
          rd.stale.flatMap (s.parting d r d.clock))) := by
  unfold round Shared.round
  rw [h]
  dsimp only
  rw [evict_eq, Shared.foldl_note, Shared.recorded_recorded]
  rfl

theorem journal_flush (s : PromptStore) (is : List Instance) (saved : Nat) (d : Shared) :
    (s.flush is saved d).2.journal = d.journal ++ is.map fun i => d.saving i (s.saves i) := by
  induction is generalizing saved d with
  | nil => exact (List.append_nil _).symm
  | cons i is ih =>
      have hone : d.saveRow i (s.saves i) = d.recorded
          (if s.saves i then d.store.save (Row.ofInstance i) else d.store)
          [d.saving i (s.saves i)] := by
        cases s.saves i <;> rfl
      show (s.flush is _ (d.saveRow i (s.saves i))).2.journal = _
      rw [ih, hone, List.map_cons, List.append_cons]
      rfl

/-- Saving everything saves each instance once. -/
theorem journal_persist (s : PromptStore) (d : Shared) : (s.persist d).2.journal =
    d.journal ++ d.cache.snapshot.map fun i => d.saving i (s.saves i) :=
  s.journal_flush _ 0 d

end PromptStore

end Vigil
