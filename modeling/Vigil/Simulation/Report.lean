import Vigil.Simulation.World

/-!
# Reports of a world

What happened since the last report, each kind of event in a fixed order that does
not depend on the order of concurrent tasks.
-/

namespace Vigil.Simulation

/-- Orders by `f` first and leaves ties to `next`. -/
def ordering (cs : List Ordering) : Ordering := cs.foldl Ordering.then .eq

def compareLists [Ord α] : List α → List α → Ordering
  | [], [] => .eq
  | [], _ :: _ => .lt
  | _ :: _, [] => .gt
  | a :: as, b :: bs => (compare a b).then (compareLists as bs)

/-- Sorts stably by `cmp`. -/
def sortBy (cmp : α → α → Ordering) (xs : List α) : List α :=
  xs.mergeSort fun a b => (cmp a b).isLE

/-- Label sets as lists of names and values. -/
def compareLabels (a b : Labels) : Ordering :=
  compareLists (a.entries.flatMap fun e => [e.1, e.2]) (b.entries.flatMap fun e => [e.1, e.2])

def sortAlerts (as : List Alert) : List Alert :=
  sortBy (fun a b => compareLabels a.labels b.labels) as

/-- Something a routine did, under the org and name it is listed by. -/
structure RoutineEvent where
  time : Nat
  name : RuleKey
  event : Event

/-- A store call: when, which rule and row, and whether it succeeded. -/
structure StoreCall where
  time : Nat
  key : RuleKey
  hash : String
  ok : Bool

structure Report where
  events : List RoutineEvent := []
  annotations : List Annotation := []
  saved : List StoreCall := []
  deleted : List StoreCall := []

namespace Report

/-- Under which org and name an event is listed, if it is a routine's. -/
def name? : Event → Option RuleKey
  | .evaluatorRequested _ c => some ⟨c.org, c.refId⟩
  | .alertsSent k _ => some k
  | .applied k _ => some k
  | .routineStopped k => some k
  | _ => none

def compareAnnotations (a b : Annotation) : Ordering :=
  ordering [compare a.org b.org, compare a.ruleUid b.ruleUid, compare a.text b.text,
    compare a.previous b.previous, compare a.current b.current,
    compare a.epochMillis b.epochMillis]

def compareCalls (a b : StoreCall) : Ordering :=
  ordering [compare a.time b.time, compare a.key b.key, compare a.hash b.hash,
    compare a.ok b.ok]

/-- The report on a journal. -/
def ofJournal (annotating : Bool) (journal : List Entry) : Report where
  events := sortBy (fun a b => ordering [compare a.time b.time, compare a.name b.name])
    (journal.filterMap fun e => (name? e.event).map (⟨e.time, ·, e.event⟩))
  annotations :=
    if annotating then
      sortBy compareAnnotations (journal.filterMap fun e =>
        match e.event with
        | .annotated a => some a
        | _ => none)
    else []
  saved := sortBy compareCalls (journal.filterMap fun e =>
    match e.event with
    | .rowSaved k hash ok => some ⟨e.time, k, hash, ok⟩
    | _ => none)
  deleted := sortBy compareCalls (journal.filterMap fun e =>
    match e.event with
    | .rowDeleted k hash ok => some ⟨e.time, k, hash, ok⟩
    | _ => none)

end Report

end Vigil.Simulation
