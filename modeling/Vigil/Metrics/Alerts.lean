import Vigil.Cache
import Vigil.Metrics.Exposition

/-!
# Metrics of the alert instances

A gauge for each state says how many instances are in it. Every state is written
at once, so one that has drained reads zero. A gauge is a signed 64-bit number, and
a count beyond wraps around.
-/

namespace Vigil

structure AlertMetrics where
  gauges : Table String Int := ∅
deriving Inhabited

namespace AlertMetrics

def gaugeName (s : Status) : String := String.ofList (s.text.toList.map Char.toLower)

def record (m : AlertMetrics) (counts : List (Status × Nat)) : AlertMetrics :=
  ⟨Status.all.foldl (fun t s =>
    let n : Int := ((counts.find? (·.1 == s)).map (·.2)).getD 0
    t.insert (gaugeName s) (n.bmod (1 <<< 64))) m.gauges⟩

/-- A gauge's value, and the metrics in which it now exists. -/
def read (m : AlertMetrics) (s : Status) : Int × AlertMetrics :=
  let n := (m.gauges.find? (gaugeName s)).getD 0
  (n, ⟨m.gauges.insert (gaugeName s) n⟩)

open Metrics in
def families (m : AlertMetrics) : List Family :=
  [{ name := "alerting_alerts"
     help := "How many alerts by state"
     kind := .gauge
     samples := m.gauges.entries.map fun (state, n) =>
       { labels := [("state", state)], value := toString n } }]

def text (m : AlertMetrics) : List String := Metrics.exposition m.families

end AlertMetrics

end Vigil
