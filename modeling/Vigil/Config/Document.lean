import Vigil.Config
import Vigil.Document

/-!
# Settings documents

Settings are read from a document field by field: a field that is left out keeps its
default, an unknown one is passed over, and one of the wrong kind or range spoils the
document. A section may
also be written as the list of its fields in order; what follows the last of them is
passed over or spoils the document, as the reader asks. Settings are written as a
document that leaves no field out.
-/

namespace Vigil

namespace Document

/-- A whole number below `bound`. -/
def toNat (bound : Nat) : Document → Except ConfigError Nat
  | integer n => if 0 ≤ n ∧ n < bound then .ok n.toNat else .error .malformed
  | _ => .error .malformed

def toBool : Document → Except ConfigError Bool
  | boolean b => .ok b
  | _ => .error .malformed

def toText : Document → Except ConfigError String
  | text s => .ok s
  | _ => .error .malformed

def toOptionalText : Document → Except ConfigError (Option String)
  | absent => .ok none
  | d => (toText d).map some

/-- The fields that a section gives, by name. If `exact`, a list may not be longer
than they are. -/
def fields (exact : Bool) (names : List String) :
    Document → Except ConfigError (List (String × Document))
  | table entries => .ok entries
  | list items =>
    if exact && names.length < items.length then .error .malformed else .ok (names.zip items)
  | _ => .error .malformed

/-- One field, or its default if it is not given. -/
def field (fs : List (String × Document)) (name : String) (default : α)
    (read : Document → Except ConfigError α) : Except ConfigError α :=
  match fs.find? (·.1 == name) with
  | some (_, d) => read d
  | none => .ok default

def toSchedulerSettings (exact : Bool) (d : Document) : Except ConfigError SchedulerSettings := do
  let fs ← d.fields exact ["base_interval_secs", "min_interval_secs", "max_attempts",
    "disable_folder_label", "app_url"]
  let s : SchedulerSettings := {}
  return {
    baseIntervalSeconds := ← field fs "base_interval_secs" s.baseIntervalSeconds (toNat (1 <<< 64))
    minIntervalSeconds := ← field fs "min_interval_secs" s.minIntervalSeconds (toNat (1 <<< 64))
    maxAttempts := ← field fs "max_attempts" s.maxAttempts (toNat (1 <<< 32))
    disableFolderLabel := ← field fs "disable_folder_label" s.disableFolderLabel toBool
    appUrl := ← field fs "app_url" s.appUrl toOptionalText }

def toStateSettings (exact : Bool) (d : Document) : Except ConfigError StateSettings := do
  let fs ← d.fields exact ["resend_delay_secs", "resend_multiplier", "stale_multiplier",
    "max_results_per_instance", "metrics_interval_secs", "persist_interval_secs"]
  let s : StateSettings := {}
  return {
    resendDelaySeconds := ← field fs "resend_delay_secs" s.resendDelaySeconds (toNat (1 <<< 64))
    resendMultiplier := ← field fs "resend_multiplier" s.resendMultiplier (toNat (1 <<< 32))
    staleMultiplier := ← field fs "stale_multiplier" s.staleMultiplier (toNat (1 <<< 32))
    maxResultsPerInstance :=
      ← field fs "max_results_per_instance" s.maxResultsPerInstance (toNat (1 <<< 64))
    metricsIntervalSeconds :=
      ← field fs "metrics_interval_secs" s.metricsIntervalSeconds (toNat (1 <<< 64))
    persistIntervalSeconds :=
      ← field fs "persist_interval_secs" s.persistIntervalSeconds (toNat (1 <<< 64)) }

def toLoggingSettings (exact : Bool) (d : Document) : Except ConfigError LoggingSettings := do
  let fs ← d.fields exact ["level", "format", "include_location"]
  let s : LoggingSettings := {}
  return {
    level := ← field fs "level" s.level toText
    format := ← field fs "format" s.format toText
    includeLocation := ← field fs "include_location" s.includeLocation toBool }

def toConfig (exact : Bool) (d : Document) : Except ConfigError Config := do
  let fs ← d.fields exact ["scheduler", "state", "logging"]
  return {
    scheduler := ← field fs "scheduler" {} (toSchedulerSettings exact)
    state := ← field fs "state" {} (toStateSettings exact)
    logging := ← field fs "logging" {} (toLoggingSettings exact) }

end Document

/-- The document that gives every field of a configuration. -/
def Config.toDocument (c : Config) : Document :=
  .table [
    ("scheduler", .table [
      ("base_interval_secs", .integer c.scheduler.baseIntervalSeconds),
      ("min_interval_secs", .integer c.scheduler.minIntervalSeconds),
      ("max_attempts", .integer c.scheduler.maxAttempts),
      ("disable_folder_label", .boolean c.scheduler.disableFolderLabel),
      ("app_url", (c.scheduler.appUrl.map Document.text).getD .absent)]),
    ("state", .table [
      ("resend_delay_secs", .integer c.state.resendDelaySeconds),
      ("resend_multiplier", .integer c.state.resendMultiplier),
      ("stale_multiplier", .integer c.state.staleMultiplier),
      ("max_results_per_instance", .integer c.state.maxResultsPerInstance),
      ("metrics_interval_secs", .integer c.state.metricsIntervalSeconds),
      ("persist_interval_secs", .integer c.state.persistIntervalSeconds)]),
    ("logging", .table [
      ("level", .text c.logging.level),
      ("format", .text c.logging.format),
      ("include_location", .boolean c.logging.includeLocation)])]

end Vigil
