import Vigil.Instance

/-!
# The instance store

Rows outlive the process. A row is what the store keeps of an instance: enough
to go on where it stood, but not its window. Rows are filed by org, and a saved row
takes the place of the one for the same rule and label digest. So a store that has
only been saved to keeps one row for each instance, under its own org.
-/

namespace Vigil

structure Row where
  org : Int
  ruleUid : String
  labels : Labels
  hash : String
  status : Status
  reason : String
  since : Option Moment
  endsAt : Option Moment
  lastEvaluation : Moment
deriving DecidableEq, Inhabited

namespace Row

def ruleKey (row : Row) : RuleKey := ⟨row.org, row.ruleUid⟩

/-- Whether this is the row of a rule's instance with the given label digest. -/
def isFor (row : Row) (org : Int) (ruleUid hash : String) : Bool :=
  row.org == org && row.ruleUid == ruleUid && row.hash == hash

def ofInstance (i : Instance) : Row where
  org := i.org
  ruleUid := i.ruleUid
  labels := i.labels
  hash := i.labels.id
  status := i.status
  reason := i.reason
  since := i.startsAt
  endsAt := i.endsAt
  lastEvaluation := i.lastEvaluation

/-- The instance of `r` that goes on where the row stopped, if there is room for its
window. -/
def restore? (row : Row) (r : Rule) (history : Nat) : Option Instance :=
  (Instance.new? r row.labels history).map fun i => { i with
    status := row.status
    reason := row.reason
    startsAt := row.since
    endsAt := row.endsAt
    lastEvaluation := row.lastEvaluation }

end Row

/-- Rows in the order they came, each with the org it is filed under. -/
structure Store where
  filed : List (Int × Row) := []
deriving DecidableEq, Inhabited

namespace Store

/-- Files a row under `org`, behind all others. -/
def file (s : Store) (org : Int) (row : Row) : Store := ⟨s.filed ++ [(org, row)]⟩

/-- Puts `row` in the place of the first one for the same instance. A row that has no
place yet is filed under its own org. -/
def save (s : Store) (row : Row) : Store :=
  match s.filed.findIdx? fun e => e.2.isFor row.org row.ruleUid row.hash with
  | some n => ⟨s.filed.modify n fun e => (e.1, row)⟩
  | none => s.file row.org row

def delete (s : Store) (org : Int) (ruleUid hash : String) : Store :=
  ⟨s.filed.filter fun e => !e.2.isFor org ruleUid hash⟩

def list (s : Store) (org : Int) : List Row :=
  (s.filed.filter (·.1 == org)).map (·.2)

/-- Every org with a row, in order. -/
def orgs (s : Store) : List Int :=
  (Table.ofList (s.filed.map fun e => (e.1, ()))).keys

end Store

end Vigil
