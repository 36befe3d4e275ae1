import Vigil.Error
import Vigil.Labels
import Vigil.Time

/-!
# Verdicts

One evaluation of a rule yields a list of verdicts, each about the instance with
certain labels.
-/

namespace Vigil

/-- What an evaluator finds, and what an instance is in. Only instances are
pending. -/
inductive Status where
  | normal
  | pending
  | alerting
  | noData
  | error
deriving DecidableEq, Repr, Inhabited

namespace Status

def all : List Status := [normal, pending, alerting, noData, error]

def text : Status → String
  | normal => "Normal"
  | pending => "Pending"
  | alerting => "Alerting"
  | noData => "NoData"
  | error => "Error"

def ofText? (s : String) : Option Status := all.find? (·.text == s)

/-- The states that a notifier hears about. -/
def isActive : Status → Bool
  | alerting | noData | error => true
  | normal | pending => false

end Status

/-- Measured numbers by the query that gave them. -/
abbrev Values := Table String (Option Float)

structure Verdict where
  labels : Labels
  status : Status
  time : Moment
  error : Option String := none
  took : Span := .zero
  text : String := ""
  values : Values := ∅

namespace Verdict

/-- The verdict on an evaluation that failed for the reason given. -/
def failed (detail : String) (t : Moment) (took : Span) : Verdict :=
  { labels := ∅, status := .error, time := t, error := some detail, took }

def ofError (e : EngineError) (t : Moment) (took : Span) : Verdict := failed e.message t took

end Verdict

def hasErrors (vs : List Verdict) : Bool := vs.any (·.status == .error)

theorem hasErrors_iff {vs : List Verdict} : hasErrors vs = true ↔ ∃ v ∈ vs, v.status = .error := by
  unfold hasErrors
  rw [List.any_eq_true]
  simp only [beq_iff_eq]

end Vigil
