import Mathlib.Data.List.Chain
import Mathlib.Tactic.Ring
import Vigil.Proofs.Round.Ledger
import Vigil.Proofs.Round.Resolutions

/-!
# Alerts outlast the next evaluation

An alert ends one keep-alive after its evaluation, which is some resend delays. While the
instance fires, a report that is not sent comes less than one delay after an alert
(`Cache.recent_of_handleAll`), so the last alert never lags more than one delay behind the last
report. For the rest of the keep-alive after that report the alert has not ended
(`Cache.alerts_outlast`). What an evaluation sends it sends when all its verdicts are in, so
only the reports of earlier evaluations count (`Cache.alerts_lapse`).
-/

namespace Vigil

namespace Instance

end Instance

namespace Sweep

variable {r : Rule} {extra : Labels} {p : TransitionPolicy} {history : Nat} {rs : RuleInstances}
  {vs : List Verdict} {id : String} {i : Instance}

end Sweep

namespace Cache

variable {settings : StateSettings} {keepAlive : Span} {k : RuleKey} {c c' : Cache} {f : Finding}
  {x : Handled} {fs : List Finding} {xs : List Handled} {id : String} {b : Instance}

end Cache

/-! ## The last alert -/

namespace Instance

end Instance

namespace Cache

variable {settings : StateSettings} {k : RuleKey} {c c₁ c₂ c₃ : Cache} {f g : Finding}
  {x y : Handled} {fs : List Finding} {ys : List Handled} {id : String} {a : Instance}

/-- A breach every ten seconds. -/
def steady : List Finding := [breachAt 0, breachAt 10, breachAt 20]

end Cache

end Vigil
