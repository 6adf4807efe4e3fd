import WorkflowEngine.Data.Fields

/-!
# Configuration

## Main definitions

* `Config`: the limits of runs, and where workflows are found
* `Config.toJson`, `Config.ofDatum?`: the configuration as a value and from data
-/

namespace WorkflowEngine

open Data

/-- The format of log messages. -/
inductive LogFormat where
  | text
  | json
deriving Repr, DecidableEq, Inhabited

/-- The limits of runs, and where workflows are found. -/
structure Config where
  /-- The bound of loops that declare none. -/
  defaultMaxIterations : Nat := 10
  /-- The seconds that a simple step may take if it declares none. -/
  defaultStepTimeoutSecs : Option Nat := none
  /-- The seconds that an approval may take: seven days. -/
  approvalTimeoutSecs : Nat := 7 * 24 * 60 * 60
  /-- The number of events that the event bus keeps. -/
  eventBusCapacity : Nat := 1024
  /-- How often a simple step may be tried again at most. -/
  maxLeafRetries : Nat := 5
  logFormat : LogFormat := .text
  enableOtel : Bool := false
  /-- Where workflows are found. -/
  catalogDir : Option String := none
deriving Repr, DecidableEq, Inhabited

/-- The name of a format. -/
def LogFormat.name : LogFormat → String
  | .text => "text"
  | .json => "json"

/-- The configuration as a value. -/
def Config.toJson (c : Config) : Json :=
  .ofFields [
    ("default_max_iterations", .ofNat c.defaultMaxIterations),
    ("default_step_timeout_secs", (c.defaultStepTimeoutSecs.map Json.ofNat).getD .null),
    ("approval_timeout_secs", .ofNat c.approvalTimeoutSecs),
    ("event_bus_capacity", .ofNat c.eventBusCapacity),
    ("max_leaf_retries", .ofNat c.maxLeafRetries),
    ("log_format", .str c.logFormat.name),
    ("enable_otel", .bool c.enableOtel),
    ("catalog_dir", .ofText? c.catalogDir)]

/-- The configuration from data. -/
def Config.ofDatum? (d : Datum) : Option Config := do
  let f ← d.fields? ["default_max_iterations", "default_step_timeout_secs",
    "approval_timeout_secs", "event_bus_capacity", "max_leaf_retries", "log_format",
    "enable_otel", "catalog_dir"]
  let standard : Config := {}
  return {
    defaultMaxIterations :=
      ← f.withDefault "default_max_iterations" standard.defaultMaxIterations
          (Datum.nat? (Bits.words 32))
    defaultStepTimeoutSecs := ← f.optional "default_step_timeout_secs" (Datum.nat? (Bits.words 64))
    approvalTimeoutSecs :=
      ← f.withDefault "approval_timeout_secs" standard.approvalTimeoutSecs
          (Datum.nat? (Bits.words 64))
    eventBusCapacity :=
      ← f.withDefault "event_bus_capacity" standard.eventBusCapacity (Datum.nat? (Bits.words 64))
    maxLeafRetries :=
      ← f.withDefault "max_leaf_retries" standard.maxLeafRetries (Datum.nat? (Bits.words 32))
    logFormat :=
      ← f.withDefault "log_format" standard.logFormat
        (readWord [("text", LogFormat.text), ("json", .json)])
    enableOtel := ← f.withDefault "enable_otel" standard.enableOtel Datum.bool?
    catalogDir := ← f.optional "catalog_dir" Datum.text? }

end WorkflowEngine
