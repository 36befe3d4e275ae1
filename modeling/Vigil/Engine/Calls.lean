import Vigil.Engine.Shared

/-!
# Calls that wait for the store

Three operations on the instances go on while the store answers: dropping the
stale instances after a round, erasing a rule, and saving everything. Each is a
value that says what is still to be done, and each takes one answer of the store
at a time. Between two answers anything may happen.
-/

namespace Vigil

/-- Drops the stale instances of a round, one after the other. -/
structure Eviction where
  rule : Rule
  /-- The clock when the round began. -/
  now : Moment
  stale : List Instance

namespace Eviction

def isDone (e : Eviction) : Bool := e.stale.isEmpty

/-- The store has answered for the first instance. -/
def answer (e : Eviction) (ok : Bool) (d : Shared) : Eviction × Shared :=
  match e.stale with
  | [] => (e, d)
  | i :: rest => ({ e with stale := rest }, (d.deleteRow i ok).annotateClosing e.rule e.now i)

end Eviction

/-- Applies the verdicts of one evaluation, up to the point where the store is
needed. There is no round if a moment leaves the calendar or a window has no room. -/
def Shared.round (d : Shared) (r : Rule) (vs : List Verdict) (extra : Labels) :
    Option (List Instance × Eviction) × Shared :=
  match d.cache.round d.state d.clock r vs extra with
  | (none, cache) => (none, { d with cache })
  | (some round, cache) =>
    (some (round.processed, ⟨r, d.clock, round.stale⟩),
      round.changes.foldl (fun d c => d.annotate (c.note r)) { d with cache })

/-- Erases the rows of a rule's former instances, all at once. -/
structure Erasure where
  /-- The rule, if it is known. -/
  rule : Option Rule
  removed : List Instance
  waiting : List Instance

namespace Erasure

def isDone (e : Erasure) : Bool := e.waiting.isEmpty

/-- Annotates the alerting instances among those removed, if the rule is known. -/
def close (e : Erasure) (d : Shared) : Shared :=
  match e.rule with
  | some r => e.removed.foldl (fun d' i => d'.annotateClosing r d.clock i) d
  | none => d

/-- The store has answered for one of the instances. With the last answer the
erasure is over. -/
def answer (e : Erasure) (which : Nat) (ok : Bool) (d : Shared) : Erasure × Shared :=
  match e.waiting[which]? with
  | none => (e, d)
  | some i =>
    let e := { e with waiting := e.waiting.eraseIdx which }
    let d := d.deleteRow i ok
    (e, if e.isDone then e.close d else d)

end Erasure

/-- Drops a rule from the cache; its rows are yet to be erased. -/
def Shared.erase (d : Shared) (k : RuleKey) (rule : Option Rule) : Erasure × Shared :=
  let (removed, cache) := d.cache.removeRule k
  (⟨rule, removed, removed⟩, { d with cache })

/-- Saves instances one after the other, as they were when it began. -/
structure Flush where
  waiting : List Instance
  saved : Nat := 0

namespace Flush

def isDone (f : Flush) : Bool := f.waiting.isEmpty

/-- The store has answered for the first instance. -/
def answer (f : Flush) (ok : Bool) (d : Shared) : Flush × Shared :=
  match f.waiting with
  | [] => (f, d)
  | i :: rest => (⟨rest, if ok then f.saved + 1 else f.saved⟩, d.saveRow i ok)

end Flush

def Shared.flush (d : Shared) : Flush := ⟨d.cache.snapshot, 0⟩

/-- A store that answers every call at once, as `saves` and `deletes` say. -/
structure PromptStore where
  saves : Instance → Bool := fun _ => true
  deletes : Instance → Bool := fun _ => true

namespace PromptStore

/-- Runs an eviction to its end. -/
def evict (s : PromptStore) (r : Rule) (now : Moment) : List Instance → Shared → Shared
  | [], d => d
  | i :: rest, d => s.evict r now rest (Eviction.answer ⟨r, now, i :: rest⟩ (s.deletes i) d).2

/-- Runs the rest of an erasure to its end. -/
def erase (s : PromptStore) (rule : Option Rule) (removed : List Instance) :
    List Instance → Shared → Shared
  | [], d => d
  | i :: rest, d =>
    s.erase rule removed rest (Erasure.answer ⟨rule, removed, i :: rest⟩ 0 (s.deletes i) d).2

/-- Runs a flush to its end and counts what was saved. -/
def flush (s : PromptStore) : List Instance → Nat → Shared → Nat × Shared
  | [], saved, d => (saved, d)
  | i :: rest, saved, d =>
    let (f, d) := Flush.answer ⟨i :: rest, saved⟩ (s.saves i) d
    s.flush rest f.saved d

/-- A whole round: the instance after each verdict, unless the round fails. -/
def round (s : PromptStore) (d : Shared) (r : Rule) (vs : List Verdict) (extra : Labels) :
    Option (List Instance) × Shared :=
  match d.round r vs extra with
  | (none, d) => (none, d)
  | (some (processed, eviction), d) => (some processed, s.evict r eviction.now eviction.stale d)

/-- A whole reset: the instances that were removed. -/
def reset (s : PromptStore) (d : Shared) (k : RuleKey) (rule : Option Rule) :
    List Instance × Shared :=
  let (erasure, d) := d.erase k rule
  (erasure.removed, s.erase rule erasure.removed erasure.waiting d)

/-- Saves every cached instance and counts the successes. -/
def persist (s : PromptStore) (d : Shared) : Nat × Shared :=
  s.flush d.flush.waiting 0 d

end PromptStore

end Vigil
