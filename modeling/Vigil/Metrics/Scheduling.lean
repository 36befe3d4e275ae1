import Vigil.Digest.RuleSetHash
import Vigil.Metrics.Exposition
import Vigil.Rule

/-!
# Metrics of the scheduler

Evaluations, failures and evaluation times by org, missed ticks by rule, the size
and hash of the rule set, and how the tick loop keeps up. Reading a counter
brings it into being, at zero.
-/

namespace Vigil

structure SchedulerMetrics where
  evaluations : Table Int Nat := ∅
  failures : Table Int Nat := ∅
  durations : Table Int Histogram := ∅
  missed : Table RuleKey Nat := ∅
  ruleCount : Nat := 0
  ruleSetReading : Nat := 0
  behindSeconds : Float := 0
  tickDurations : Histogram := .new (Histogram.doubling 0.001 12)

namespace SchedulerMetrics

instance : Inhabited SchedulerMetrics := ⟨{}⟩

def durationHistogram : Histogram := .new (Histogram.doubling 0.01 12)

/-- Adds `n` to a counter. -/
def count [Ord κ] [Std.TransOrd κ] (t : Table κ Nat) (k : κ) (n : Nat) : Table κ Nat :=
  t.insert k ((t.find? k).getD 0 + n)

def recordEvaluation (m : SchedulerMetrics) (org : Int) (took : Span) (failed : Bool) :
    SchedulerMetrics :=
  { m with
    evaluations := count m.evaluations org 1
    durations := m.durations.insert org
      (((m.durations.find? org).getD durationHistogram).observe took.toFloat)
    failures := if failed then count m.failures org 1 else m.failures }

def recordMissed (m : SchedulerMetrics) (k : RuleKey) : SchedulerMetrics :=
  { m with missed := count m.missed k 1 }

def recordRules (m : SchedulerMetrics) (uids : List String) : SchedulerMetrics :=
  { m with
    ruleCount := uids.length
    ruleSetReading := RuleSetHash.reading (RuleSetHash.hash uids) }

def recordBehind (m : SchedulerMetrics) (late : Span) : SchedulerMetrics :=
  { m with behindSeconds := late.toFloat }

def recordTick (m : SchedulerMetrics) (took : Span) : SchedulerMetrics :=
  { m with tickDurations := m.tickDurations.observe took.toFloat }

/-- A counter's value, and the metrics in which it now exists. -/
def readEvaluations (m : SchedulerMetrics) (org : Int) : Nat × SchedulerMetrics :=
  ((m.evaluations.find? org).getD 0, { m with evaluations := count m.evaluations org 0 })

def readFailures (m : SchedulerMetrics) (org : Int) : Nat × SchedulerMetrics :=
  ((m.failures.find? org).getD 0, { m with failures := count m.failures org 0 })

def readMissed (m : SchedulerMetrics) (k : RuleKey) : Nat × SchedulerMetrics :=
  ((m.missed.find? k).getD 0, { m with missed := count m.missed k 0 })

open Metrics in
def families (m : SchedulerMetrics) : List Family :=
  let byOrg := fun (t : Table Int Nat) => t.entries.map fun (org, n) =>
    ({ suffix := "_total", labels := [("org", toString org)], value := toString n } : Sample)
  [{ name := "alerting_rule_evaluations"
     help := "The total number of rule evaluations"
     kind := .counter
     samples := byOrg m.evaluations },
   { name := "alerting_rule_evaluation_failures"
     help := "The total number of rule evaluation failures"
     kind := .counter
     samples := byOrg m.failures },
   { name := "alerting_rule_evaluation_duration_seconds"
     help := "The duration for a rule to execute"
     kind := .histogram
     samples := m.durations.entries.flatMap fun (org, h) =>
       histogramSamples [("org", toString org)] h },
   { name := "alerting_rule_evaluations_missed"
     help := "The number of ticks dropped because the previous evaluation was still running"
     kind := .counter
     samples := m.missed.entries.map fun (k, n) =>
       { suffix := "_total", labels := [("org", toString k.org), ("rule_uid", k.uid)],
         value := toString n } },
   { name := "alerting_schedulable_alert_rules"
     help := "The number of alert rules that could be considered for evaluation at the next tick"
     kind := .gauge
     samples := [{ value := toString m.ruleCount }] },
   { name := "alerting_schedulable_alert_rules_hash"
     help := "A hash of the alert rules that could be considered for evaluation at the next tick"
     kind := .gauge
     samples := [{ value := toString m.ruleSetReading }] },
   { name := "alerting_scheduler_behind_seconds"
     help := "The total number of seconds the scheduler is behind"
     kind := .gauge
     samples := [{ value := Decimal.Style.quick.write m.behindSeconds }] },
   { name := "alerting_schedule_periodic_duration_seconds"
     help := "The time taken to run the scheduler"
     kind := .histogram
     samples := histogramSamples [] m.tickDurations }]

def text (m : SchedulerMetrics) : List String := Metrics.exposition m.families

end SchedulerMetrics

end Vigil
