import Vigil.Annotation
import Vigil.Cache
import Vigil.Config
import Vigil.Store

/-!
# Rounds of verdicts

A round applies the verdicts of one evaluation to the instances of its rule, in
order, and then drops the instances that no verdict named and that have gone
stale. It also says what the outside must hear: the changes to annotate and the
rows to delete.
-/

namespace Vigil

/-- A change that one verdict made. -/
structure Change where
  labels : Labels
  time : Moment
  transition : Transition

def Change.note (r : Rule) (c : Change) : Annotation :=
  .new r c.labels c.time c.transition

theorem Change.says_note (r : Rule) (c : Change) :
    (c.note r).Says r c.labels c.time c.transition :=
  Annotation.says_new ..

/-- A round part way through its verdicts. -/
structure Sweep where
  instances : RuleInstances
  seen : List String := []
  processed : List Instance := []
  changes : List Change := []
  /-- Some verdict led out of the calendar, or there was no room for the window of a
  new instance. The later verdicts are not looked at. -/
  failed : Bool := false

namespace Sweep

/-- Applies `v` to the instance `i` under `id`. -/
def settle (s : Sweep) (r : Rule) (p : TransitionPolicy) (v : Verdict) (id : String)
    (i : Instance) : Sweep :=
  let (after, outcome) := i.apply r v p
  let s := { s with instances := s.instances.insert id after }
  match outcome with
  | .outOfRange => { s with failed := true }
  | .ignored => { s with processed := s.processed ++ [after] }
  | .moved t =>
    { s with
      processed := s.processed ++ [after]
      changes := if t.changed then s.changes ++ [⟨after.labels, v.time, t⟩] else s.changes }

/-- Takes one verdict. A pending one is no verdict, but it names its instance. -/
def take (r : Rule) (extra : Labels) (p : TransitionPolicy) (history : Nat)
    (s : Sweep) (v : Verdict) : Sweep :=
  if s.failed then s
  else
    let labels := r.expand extra v.labels
    let id := labels.id
    let known := s.instances.find? id
    let s := { s with seen := s.seen ++ [id] }
    if v.status = .pending then
      { s with processed := s.processed ++ known.toList }
    else
      match known.or (Instance.new? r labels history) with
      | some i => s.settle r p v id i
      | none => { s with failed := true }

end Sweep

/-- What a round leaves to report. -/
structure Round where
  /-- The instance after each verdict, in order. -/
  processed : List Instance
  changes : List Change
  stale : List Instance

namespace Cache

/-- Splits off the instances that are stale and unseen. There is no answer if
the limit of one of them is out of range. -/
def splitStale? (now : Moment) (r : Rule) (multiplier : Nat) (seen : List String)
    (rs : RuleInstances) : Option (List Instance × RuleInstances) :=
  let unseen := rs.filter fun id _ => !seen.contains id
  if unseen.values.any fun i => (i.isStale? now r multiplier).isNone then none
  else
    let gone := fun (id : String) (i : Instance) =>
      !seen.contains id && i.isStale? now r multiplier == some true
    some ((rs.filter gone).values, rs.filter fun id i => !gone id i)

/-- One round on the instances of `r`. A round that fails keeps what it had
done to them. -/
def round (c : Cache) (settings : StateSettings) (now : Moment) (r : Rule)
    (vs : List Verdict) (extra : Labels) : Option Round × Cache :=
  match settings.policy? with
  | none => (none, c)
  | some p =>
    c.withRule r.key fun rs =>
      let s := vs.foldl (Sweep.take r extra p (settings.historyFor r)) { instances := rs }
      if s.failed then (none, s.instances)
      else
        match splitStale? now r settings.staleMultiplier s.seen s.instances with
        | none => (none, s.instances)
        | some (stale, kept) => (some ⟨s.processed, s.changes, stale⟩, kept)

/-- Notes that `sent` went out at their last evaluation. Instances no longer
cached are passed over. -/
def markSent (c : Cache) (sent : List Instance) : Cache :=
  sent.foldl (fun c i =>
    (c.withRule i.ruleKey fun rs =>
      match rs.find? i.id with
      | some cached => ((), rs.insert i.id { cached with sentAt := some i.lastEvaluation })
      | none => ((), rs)).2) c

/-- Adds the instances of stored rows whose rule is known, and counts them. There is
no answer if there is no room for the window of one. -/
def restore? (c : Cache) (settings : StateSettings) (rules : List Rule) (rows : List Row) :
    Option (Nat × Cache) :=
  let byKey : Table RuleKey Rule := .ofList (rules.map fun r => (r.key, r))
  rows.foldlM (fun (n, c) row =>
    match byKey.find? row.ruleKey with
    | some r => (row.restore? r (settings.historyFor r)).map fun i => (n + 1, c.set i)
    | none => some (n, c)) (0, c)

end Cache

end Vigil
