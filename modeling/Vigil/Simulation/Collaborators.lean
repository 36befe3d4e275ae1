import Vigil.Engine.Scheduler

/-!
# Scripted collaborators

Stand-ins for the rule source, the evaluators and the store, whose answers are
set beforehand. They take time only where a delay is given.
-/

namespace Vigil.Simulation

/-- Where the rules come from. -/
structure Source where
  rules : List Rule := []
  folders : Table String String := ∅
  /-- Why listings fail, if they do. -/
  failure : Option String := none
  /-- Milliseconds that the next listings take. -/
  delays : List Nat := []

namespace Source

/-- The delay of the next listing, if it has one. -/
def nextDelay (s : Source) : Option Nat × Source :=
  match s.delays with
  | [] => (none, s)
  | ms :: rest => (some ms, { s with delays := rest })

def listing? (s : Source) : Option RuleSet :=
  match s.failure with
  | some _ => none
  | none => some (.ofListing s.rules s.folders)

def keys (s : Source) : Except EngineError (List RuleKey) :=
  match s.failure with
  | some detail => .error (.ruleStore detail)
  | none => .ok (s.rules.map Rule.key)

end Source

/-- What one evaluator does. -/
inductive ScriptItem where
  /-- It cannot be built. -/
  | unbuildable (detail : String)
  | fails (detail : String) (delay : Nat)
  /-- It finds verdicts, given the time it is asked about. -/
  | finds (verdicts : Moment → List Verdict) (delay : Nat)

namespace ScriptItem

def fallback : ScriptItem :=
  .finds (fun t => [{ labels := ∅, status := .normal, time := t }]) 0

def delay : ScriptItem → Nat
  | .unbuildable _ => 0
  | .fails _ ms => ms
  | .finds _ ms => ms

def building : ScriptItem → Except EngineError Unit
  | .unbuildable detail => .error (.evaluatorBuild detail)
  | _ => .ok ()

def outcome (t : Moment) : ScriptItem → Except EngineError (List Verdict)
  | .unbuildable detail => .error (.evaluatorBuild detail)
  | .fails detail _ => .error (.evaluation detail)
  | .finds verdicts _ => .ok (verdicts t)

end ScriptItem

/-- What the evaluators of one condition do, one after the other. -/
structure Script where
  queue : List ScriptItem := []
  fallback : ScriptItem := .fallback

instance : Inhabited Script := ⟨{}⟩

def Script.next (s : Script) : ScriptItem × Script :=
  match s.queue with
  | [] => (s.fallback, s)
  | item :: rest => (item, { s with queue := rest })

/-- Names of the store calls that fail. -/
abbrev Outages := List String

namespace Outages

def promptStore (o : Outages) : PromptStore where
  saves i := !o.contains ("save:" ++ i.ruleUid)
  deletes i := !o.contains ("delete:" ++ i.ruleUid)

def listsOrgs (o : Outages) : Bool := !o.contains "orgs"

def lists (o : Outages) (org : Int) : Bool := !o.contains ("list:" ++ toString org)

end Outages

end Vigil.Simulation
