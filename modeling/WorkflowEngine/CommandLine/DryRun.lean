import WorkflowEngine.CommandLine.Output
import WorkflowEngine.Expr.Evaluation
import WorkflowEngine.Json.Printer
import WorkflowEngine.Simulation.Machine

/-!
# Dry runs

A dry run goes through the steps of a workflow as a run does, but no simple step is done: each is
answered by what was asked. Approvals are all given or all refused. It happens on the clock of the
simulation, and so takes no time.

## Main definitions

* `EventData.line`: the line that tells an event
* `DryRun`: what a dry run leaves
* `dryRun`: the command that runs a workflow dry
-/

namespace WorkflowEngine.CommandLine

open Simulation

/-! ### Lines of events -/

/-- How many of the steps are done. -/
def progress (done total : Nat) : String := toString done ++ "/" ++ toString total ++ " steps"

/-- The line that tells a step that is over; steps within steps are moved in. -/
def stepLine (stepId stepType : String) (status : StepStatus) (durationMs depth : Nat)
    (error : Option String) : String :=
  let indent := String.ofList (List.replicate (2 * (depth + 2)) ' ')
  let step := stepId ++ " [" ++ stepType ++ "] "
  match status with
  | .completed => indent ++ "✓ " ++ step ++ toString durationMs ++ "ms"
  | .failed => indent ++ "✗ " ++ step ++ error.getD "failed"

/-- The line that tells an event. -/
def eventLine : EventData → String
  | .started workflowId workItemId totalSteps =>
    "  ▶ " ++ workflowId ++ " on " ++ workItemId ++ " (" ++ toString totalSteps ++ " steps)"
  | .stepExecuted stepId stepType status durationMs depth error =>
    stepLine stepId stepType status durationMs depth error
  | .paused stepId reason => "  ⏸ waiting for approval at " ++ stepId ++ ": " ++ reason
  | .resumed stepId => "  ▶ approved at " ++ stepId ++ ", resuming"
  | .completed completedSteps totalSteps durationMs =>
    "  ■ completed " ++ progress completedSteps totalSteps ++ " in " ++ toString durationMs ++ "ms"
  | .failed stepId error _ _ => "  ■ failed at " ++ stepId ++ ": " ++ error
  | .cancelled stepId completedSteps totalSteps =>
    "  ■ cancelled before " ++ stepId.getD "finishing" ++
      " (" ++ progress completedSteps totalSteps ++ " done)"

/-! ### Runs -/

/-- What a dry run leaves. -/
structure DryRun where
  executionId : Uuid
  /-- The events in order. -/
  events : List Event
  /-- How often a simple step was asked for. -/
  leafCalls : Nat
  result : Except RunError Summary

namespace DryRun

/-- The event of a notice. -/
def event? : Notice → Option Event
  | .event e => some e
  | _ => none

/-- The notice is that a simple step was asked for. -/
def isCall : Notice → Bool
  | .called .. => true
  | _ => false

/-- The dry run of a record that was started in a world. -/
def ofStarted? (config : Config) (approval : Verdict) (w : World) (id : Uuid) : Option DryRun :=
  let host : Host := { executor := .dryRun, approver := .policy approval }
  let program := ExceptT.run (Orchestration.run Expr.engine id)
  let m := Machine.simulate (.ofConfig Expr.engine config) host w program
  let notices := m.system.world.log.reverse.map Prod.snd
  m.system.result?.map fun result =>
    { executionId := id, events := notices.filterMap event?, leafCalls := notices.countP isCall,
      result }

variable (r : DryRun)

/-- What is printed of the events. -/
def eventText (json quiet : Bool) : String :=
  if json then unlines (r.events.map fun e => e.toJson.compact)
  else if quiet then ""
  else unlines (r.events.map fun e => eventLine e.data)

/-- A run that was completed or cancelled, as a value. -/
def summaryJson (s : Summary) : Json :=
  .ofFields [
    ("executionId", .str s.executionId.text),
    ("status", .str s.status.name),
    ("completedSteps", .ofNat s.completedSteps),
    ("totalSteps", .ofNat s.totalSteps),
    ("durationMs", .ofNat 0),
    ("leafCalls", .ofNat r.leafCalls)]

/-- The lines that tell a run that was completed or cancelled. -/
def summaryLines (s : Summary) : List String :=
  ["",
    "  Execution " ++ s.executionId.text ++ " " ++ s.status.name ++ ": " ++
      progress s.completedSteps s.totalSteps ++ ", " ++ toString r.leafCalls ++
      " leaf call(s), 0ms",
    ""]

/-- A run that failed, as a value. -/
def errorJson (e : RunError) : Json :=
  .ofFields [
    ("executionId", .str r.executionId.text),
    ("status", .str Status.failed.name),
    ("error", .str e.message),
    ("leafCalls", .ofNat r.leafCalls)]

/-- The failure that is told of a run that failed. -/
def failure (id : String) : RunError → Failure
  | .stepFailed stepId e =>
    ⟨"Workflow '" ++ id ++ "' failed at step '" ++ stepId ++ "': " ++ e.reason, []⟩
  | e => ⟨"Workflow '" ++ id ++ "' did not run", e.message :: causesOfRun e⟩

/-- What is printed of a dry run, and how it ends. -/
def output (json quiet : Bool) (id : String) : Output :=
  let events := r.eventText json quiet
  match r.result with
  | .ok s =>
    .success <| events ++
      if json then jsonText (r.summaryJson s)
      else if quiet then ""
      else unlines (r.summaryLines s)
  | .error e => .failure (failure id e) (events ++ if json then jsonText (r.errorJson e) else "")

end DryRun

/-- The id of the work item if none is given. -/
def localItem : String := "local"

/-- The store with the work item of a file, and the id of that item. -/
def addWorkItem (files : Files) (store : Store) : Option String → Except Failure (Store × String)
  | none => .ok (store, localItem)
  | some path =>
    match WorkItem.load files path with
    | .ok item => .ok (store.insertWorkItem item, item.id)
    | .error cause => .error ⟨"Failed to load work item " ++ path, [cause]⟩

/-- The approval that is always given: yes, unless there is a reason to refuse it. -/
def standingApproval : Option String → Verdict
  | none => .decided ⟨true, none⟩
  | some reason => .decided ⟨false, some reason⟩

/-- Runs a workflow of a directory dry. -/
def dryRun (files : Files) (config : Config) (json quiet : Bool) (dir id : String)
    (workItem reject : Option String) : Output :=
  .ofExcept <| do
    let (store, itemId) ← addWorkItem files (← openFolder files dir).store workItem
    let start := ExceptT.run (Orchestration.start id itemId)
    let unfinished : Failure := ⟨"Workflow '" ++ id ++ "' takes too many steps", []⟩
    match (World.ofStore store).perform start with
    | none => throw unfinished
    | some (.error e, _) => throw ⟨e.message, causesOfRun e⟩
    | some (.ok e, w) =>
      match DryRun.ofStarted? config (standingApproval reject) w e.id with
      | none => throw unfinished
      | some run => return run.output json quiet id

end WorkflowEngine.CommandLine
