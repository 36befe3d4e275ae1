import Vigil.Instance

/-!
# Configuration

Settings of the scheduler, of the instance states and of the log, with their
defaults, and the checks that a usable configuration passes (`Config.validate`).
-/

namespace Vigil

inductive ConfigError where
  | invalidValue (detail : String)
  | fileError (detail : String)
  /-- The document cannot be read as settings at all. -/
  | malformed
deriving DecidableEq, Repr

def ConfigError.message? : ConfigError → Option String
  | invalidValue d => some ("Invalid configuration value: " ++ d)
  | fileError d => some ("Configuration file error: " ++ d)
  | malformed => none

structure SchedulerSettings where
  /-- Seconds between two ticks. -/
  baseIntervalSeconds : Nat := 10
  /-- Shorter rule intervals are raised to this many seconds. -/
  minIntervalSeconds : Nat := 10
  maxAttempts : Nat := 3
  disableFolderLabel : Bool := false
  /-- Address of the application, for links in alerts. -/
  appUrl : Option String := none
deriving DecidableEq, Repr, Inhabited

structure StateSettings where
  resendDelaySeconds : Nat := 30
  /-- An alert lasts this many resend delays past an evaluation. -/
  resendMultiplier : Nat := 3
  /-- An instance no longer seen is stale after this many rule intervals. -/
  staleMultiplier : Nat := 2
  maxResultsPerInstance : Nat := 10
  metricsIntervalSeconds : Nat := 15
  persistIntervalSeconds : Nat := 300
deriving DecidableEq, Repr, Inhabited

structure LoggingSettings where
  level : String := "info"
  format : String := "json"
  includeLocation : Bool := true
deriving DecidableEq, Repr, Inhabited

structure Config where
  scheduler : SchedulerSettings := {}
  state : StateSettings := {}
  logging : LoggingSettings := {}
deriving DecidableEq, Repr, Inhabited

/-- A count of seconds as a signed 64-bit number. -/
def signedSeconds (n : Nat) : Int := (n : Int).bmod (1 <<< 64)

namespace SchedulerSettings

/-- The tick period in use; a tick takes at least a second. -/
def tickSeconds (s : SchedulerSettings) : Nat := max s.baseIntervalSeconds 1

def base (s : SchedulerSettings) : Int := signedSeconds s.tickSeconds

def minInterval (s : SchedulerSettings) : Int := signedSeconds s.minIntervalSeconds

def baseInterval (s : SchedulerSettings) : Span := .ofSeconds s.baseIntervalSeconds

end SchedulerSettings

namespace StateSettings

def resendDelay (s : StateSettings) : Span := .ofSeconds s.resendDelaySeconds

/-- How long an alert lasts past an evaluation, if that is a span. -/
def keepAlive? (s : StateSettings) : Option Span := s.resendDelay.times? s.resendMultiplier

def policy? (s : StateSettings) : Option TransitionPolicy :=
  s.keepAlive?.map fun keepAlive => ⟨keepAlive, s.maxResultsPerInstance⟩

/-- How many evaluations an instance of `r` remembers. -/
def historyFor (s : StateSettings) (r : Rule) : Nat :=
  Window.capacityFor r.holdFor r.interval s.maxResultsPerInstance

end StateSettings

namespace Config

/-- The first complaint about a configuration, if there is any. -/
def complaint? (c : Config) : Option String :=
  let base := c.scheduler.baseIntervalSeconds
  let min := c.scheduler.minIntervalSeconds
  if base = 0 then
    some "scheduler.base_interval_secs must be greater than 0"
  else if min % base ≠ 0 then
    some ("scheduler.min_interval_secs (" ++ toString min
      ++ ") must be a multiple of base_interval_secs (" ++ toString base ++ ")")
  else if c.scheduler.maxAttempts = 0 then
    some "scheduler.max_attempts must be at least 1"
  else if c.state.resendMultiplier = 0 ∨ c.state.staleMultiplier = 0 then
    some "state multipliers must be at least 1"
  else if c.state.maxResultsPerInstance = 0 then
    some "state.max_results_per_instance must be at least 1"
  else none

def validate (c : Config) : Except ConfigError Config :=
  match c.complaint? with
  | some detail => .error (.invalidValue detail)
  | none => .ok c

end Config

end Vigil
