import Vigil.Error
import Vigil.Labels
import Vigil.Time

/-!
# Alert rules

A rule says what to evaluate, how often, how long a breach must hold before it
fires, and what missing data and failures count as.
-/

namespace Vigil

/-- The lasting identity of a rule. -/
structure RuleKey where
  org : Int
  uid : String
deriving DecidableEq, Repr, Inhabited

namespace RuleKey

/-- By org, then by UID. -/
instance : Ord RuleKey := ⟨compareLex (compareOn RuleKey.org) (compareOn RuleKey.uid)⟩

instance : Std.TransOrd RuleKey :=
  inferInstanceAs (Std.TransCmp (compareLex (compareOn RuleKey.org) (compareOn RuleKey.uid)))

theorem compare_eq_then (a b : RuleKey) :
    compare a b = (compare a.org b.org).then (compare a.uid b.uid) := rfl

instance : Std.LawfulEqOrd RuleKey where
  compare_self := by simp
  eq_of_compare := by
    intro a b h
    rw [compare_eq_then, Ordering.then_eq_eq] at h
    cases a
    cases b
    cases Std.LawfulEqOrd.eq_of_compare h.1
    cases Std.LawfulEqOrd.eq_of_compare h.2
    rfl

def text (k : RuleKey) : String :=
  "\x7borg_id: " ++ toString k.org ++ ", uid: " ++ k.uid ++ "\x7d"

end RuleKey

/-- What missing data counts as. -/
inductive NoDataPolicy where
  | alerting
  | noData
  | ok
deriving DecidableEq, Repr, Inhabited

namespace NoDataPolicy

def text : NoDataPolicy → String
  | alerting => "Alerting"
  | noData => "NoData"
  | ok => "OK"

def parse (s : String) : Except EngineError NoDataPolicy :=
  match [alerting, noData, ok].find? (·.text == s) with
  | some p => .ok p
  | none => .error (.configuration ("unknown NoData state option " ++ s))

end NoDataPolicy

/-- What a failed evaluation counts as. -/
inductive ErrorPolicy where
  | alerting
  | error
  | ok
deriving DecidableEq, Repr, Inhabited

namespace ErrorPolicy

def text : ErrorPolicy → String
  | alerting => "Alerting"
  | error => "Error"
  | ok => "OK"

def parse (s : String) : Except EngineError ErrorPolicy :=
  match [alerting, error, ok].find? (·.text == s) with
  | some p => .ok p
  | none => .error (.configuration ("unknown Error state option " ++ s))

end ErrorPolicy

/-- What an evaluator is built from. The query is passed on unread. -/
structure Condition where
  org : Int
  refId : String
  query : String
deriving DecidableEq, Repr

structure Rule where
  org : Int := 1
  uid : String := ""
  title : String := ""
  group : String := ""
  namespaceUid : String := ""
  /-- The query or expression whose result decides. -/
  condition : String := "A"
  query : String := "null"
  /-- Seconds between evaluations. -/
  intervalSeconds : Int := 10
  /-- How long a breach holds before the rule fires. -/
  holdFor : Span := .zero
  onNoData : NoDataPolicy := .noData
  onError : ErrorPolicy := .alerting
  labels : Labels := ∅
  annotations : Table String String := ∅
  dashboardUid : Option String := none
  panelId : Option Int := none
  version : Int := 1
deriving DecidableEq, Inhabited

namespace Rule

def key (r : Rule) : RuleKey := ⟨r.org, r.uid⟩

/-- The interval as a span; one that is not positive is empty. -/
def interval (r : Rule) : Span := .ofSeconds r.intervalSeconds.toNat

def toCondition (r : Rule) : Condition := ⟨r.org, r.condition, r.query⟩

/-- The labels of an instance: those given from outside, then the rule's, then
the evaluator's. An earlier source wins a name. -/
def expand (r : Rule) (extra found : Labels) : Labels :=
  (extra.orElse r.labels).orElse found

/-- The labels that every instance of a scheduled rule gets. -/
def reservedLabels (r : Rule) (folder : Option String) : Labels :=
  let ls := ((∅ : Labels).insert ruleUidLabel r.uid).insert namespaceUidLabel r.namespaceUid
    |>.insert alertNameLabel r.title
  match folder with
  | some title => ls.insert folderLabel title
  | none => ls

end Rule

end Vigil
