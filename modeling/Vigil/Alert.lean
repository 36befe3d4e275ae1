import Vigil.Decimal.Shortest
import Vigil.Instance

/-!
# Alerts for the notifier

An alert is an instance as the notification pipeline sees it. Alerts about
missing data and failures go under a name of their own and keep the rule's title
under another label. A batch holds the instances that are due to be sent; when a
rule's instances are dropped, a closing batch ends every active one.
-/

namespace Vigil

structure Alert where
  labels : Labels
  annotations : Table String String
  startsAt : Option Moment
  endsAt : Option Moment
  generatorUrl : Option String
deriving DecidableEq

namespace Alert

def noDataName : String := "DatasourceNoData"
def errorName : String := "DatasourceError"

/-- Label with the title of a rule whose alert goes under another name. -/
def ruleNameLabel : String := "rulename"

def reasonAnnotation : String := "__state_reason__"
def valueAnnotation : String := "__value_string__"
def errorAnnotation : String := "Error"

/-- Measured values as bracketed pairs, in order of query. -/
def valuesText (vs : Values) : String :=
  String.intercalate ", " (vs.entries.map fun e =>
    "[ var='" ++ e.1 ++ "' value=" ++ (match e.2 with
      | some x => Decimal.Style.shortest.write x
      | none => "null") ++ " ]")

/-- What the last evaluation said: its own text, or else its values. -/
def valueText? (i : Instance) : Option String :=
  if !i.lastText.isEmpty then some i.lastText
  else match i.window.last? with
    | some p => if p.values.isEmpty then none else some (valuesText p.values)
    | none => none

/-- Puts an alert under `name` and keeps the name it had. -/
def rename (labels : Labels) (name : String) : Labels :=
  match labels.find? alertNameLabel with
  | some title => (labels.insert alertNameLabel name).insert ruleNameLabel title
  | none => labels.insert alertNameLabel name

/-- The page of a rule, below the address of the application. -/
def pageUrl (appUrl : String) (ruleUid : String) : String :=
  let base := String.ofList ((appUrl.toList.reverse.dropWhile (· == '/')).reverse)
  base ++ "/alerting/grafana/" ++ ruleUid ++ "/view"

def alertLabels (i : Instance) : Labels :=
  match i.status with
  | .noData => rename i.labels noDataName
  | .error => rename i.labels errorName
  | _ => i.labels

def alertAnnotations (i : Instance) : Table String String :=
  let notes := i.annotations
  let notes := if i.reason.isEmpty then notes else notes.insert reasonAnnotation i.reason
  let notes := match valueText? i with
    | some text => notes.insert valueAnnotation text
    | none => notes
  match i.status with
  | .error => notes.insert errorAnnotation (i.error.getD "")
  | _ => notes

/-- An instance as an alert. A resolved one ended with its last evaluation. -/
def ofInstance (i : Instance) (appUrl : Option String) : Alert where
  labels := alertLabels i
  annotations := alertAnnotations i
  startsAt := i.startsAt
  endsAt := if i.resolved then some i.lastEvaluation else i.endsAt
  generatorUrl := appUrl.map (pageUrl · i.ruleUid)

/-- The instances that are due to be sent, in order. There is no answer if the
delay of one of them leaves the calendar. -/
def due? (resendDelay : Span) : List Instance → Option (List Instance)
  | [] => some []
  | i :: rest => do
    let now ← i.needsSending? resendDelay
    let others ← due? resendDelay rest
    return if now then i :: others else others

/-- Ends every active instance at `now`. -/
def closing (is : List Instance) (now : Moment) (appUrl : Option String) : List Alert :=
  (is.filter (·.status.isActive)).map fun i =>
    { ofInstance i appUrl with endsAt := some now }

end Alert

end Vigil
