import Vigil.Config
import Vigil.Decimal.Reader

/-!
# Settings from the environment

Some settings can be given as environment variables. They are read in a fixed
order and the first that cannot be read is the error; the result is validated.
-/

namespace Vigil

/-- Variables with their values. -/
abbrev Environment := Table String String

namespace Environment

/-- The values that a variable can hold are those without the character zero. -/
def isPossible (env : Environment) : Bool := env.values.all fun v => !v.toList.contains '\x00'

/-- A whole number below `bound`: digits after an optional plus sign. -/
def readNat? (bound : Nat) (s : String) : Option Nat :=
  let digits := match s.toList with
    | '+' :: rest => rest
    | cs => cs
  if digits ≠ [] ∧ digits.all (·.isDigit) then
    let n := Decimal.natOfDigits digits
    if n < bound then some n else none
  else none

def readBool? (s : String) : Option Bool :=
  if s = "true" then some true else if s = "false" then some false else none

/-- The value of a variable, or `default` if it is not set. -/
def get (env : Environment) (name : String) (default : α) (read? : String → Option α) :
    Except ConfigError α :=
  match env.find? name with
  | none => .ok default
  | some text =>
    match read? text with
    | some a => .ok a
    | none => .error (.invalidValue name)

def toConfig (env : Environment) : Except ConfigError Config := do
  let c : Config := {}
  let baseIntervalSeconds ←
    env.get "RULER_BASE_INTERVAL_SECS" c.scheduler.baseIntervalSeconds (readNat? (1 <<< 64))
  let minIntervalSeconds ←
    env.get "RULER_MIN_INTERVAL_SECS" c.scheduler.minIntervalSeconds (readNat? (1 <<< 64))
  let maxAttempts ← env.get "RULER_MAX_ATTEMPTS" c.scheduler.maxAttempts (readNat? (1 <<< 32))
  let disableFolderLabel ←
    env.get "RULER_DISABLE_FOLDER_LABEL" c.scheduler.disableFolderLabel readBool?
  let appUrl := env.find? "RULER_APP_URL"
  let resendDelaySeconds ←
    env.get "RULER_RESEND_DELAY_SECS" c.state.resendDelaySeconds (readNat? (1 <<< 64))
  let level := (env.find? "RUST_LOG").getD c.logging.level
  Config.validate { c with
    scheduler := {
      baseIntervalSeconds, minIntervalSeconds, maxAttempts, disableFolderLabel, appUrl }
    state := { c.state with resendDelaySeconds }
    logging := { c.logging with level } }

end Environment

end Vigil
