import WorkflowEngine.Record.Format

/-!
# Events of runs

Every change of a run is announced by an event. The events of a run are numbered from one.

## Main definitions

* `EventData`: what has happened
* `Event`: an event with its number and time
* `Event.toJson`, `Event.ofDatum?`: events as values and from data
-/

namespace WorkflowEngine

open Data

/-- What has happened. -/
inductive EventData where
  | started (workflowId workItemId : String) (totalSteps : Nat)
  | stepExecuted (stepId stepType : String) (status : StepStatus) (durationMs depth : Nat)
    (error : Option String)
  | paused (stepId reason : String)
  | resumed (stepId : String)
  | completed (completedSteps totalSteps durationMs : Nat)
  | failed (stepId error : String) (completedSteps totalSteps : Nat)
  | cancelled (stepId : Option String) (completedSteps totalSteps : Nat)
deriving Repr, DecidableEq, Inhabited

namespace EventData

/-- The type of an event. -/
def typeName : EventData → String
  | .started .. => "workflow.started"
  | .stepExecuted .. => "step.executed"
  | .paused .. => "workflow.paused"
  | .resumed .. => "workflow.resumed"
  | .completed .. => "workflow.completed"
  | .failed .. => "workflow.failed"
  | .cancelled .. => "workflow.cancelled"

/-- The word that tells the kind of what has happened. -/
def kind : EventData → String
  | .started .. => "workflow_started"
  | .stepExecuted .. => "step_executed"
  | .paused .. => "workflow_paused"
  | .resumed .. => "workflow_resumed"
  | .completed .. => "workflow_completed"
  | .failed .. => "workflow_failed"
  | .cancelled .. => "workflow_cancelled"

/-- The fields of what has happened. -/
def fields : EventData → List (String × Option Json)
  | .started workflowId workItemId totalSteps =>
    [("workflow_id", some (.str workflowId)), ("work_item_id", some (.str workItemId)),
      ("total_steps", some (.ofNat totalSteps))]
  | .stepExecuted stepId stepType status durationMs depth error =>
    [("step_id", some (.str stepId)), ("step_type", some (.str stepType)),
      ("status", some (.str status.name)), ("duration_ms", some (.ofNat durationMs)),
      ("depth", some (.ofNat depth)), ("error", error.map .str)]
  | .paused stepId reason => [("step_id", some (.str stepId)), ("reason", some (.str reason))]
  | .resumed stepId => [("step_id", some (.str stepId))]
  | .completed completedSteps totalSteps durationMs =>
    [("completed_steps", some (.ofNat completedSteps)), ("total_steps", some (.ofNat totalSteps)),
      ("duration_ms", some (.ofNat durationMs))]
  | .failed stepId error completedSteps totalSteps =>
    [("step_id", some (.str stepId)), ("error", some (.str error)),
      ("completed_steps", some (.ofNat completedSteps)), ("total_steps", some (.ofNat totalSteps))]
  | .cancelled stepId completedSteps totalSteps =>
    [("step_id", stepId.map .str), ("completed_steps", some (.ofNat completedSteps)),
      ("total_steps", some (.ofNat totalSteps))]

/-- What has happened as a value. -/
def toJson (e : EventData) : Json := .ofFields? (("kind", some (.str e.kind)) :: e.fields)

/-- What has happened, of a kind, from the data of its fields. -/
def ofKind? (kind : String) (d : Datum) : Option EventData :=
  match kind with
  | "workflow_started" => do
    let f ← d.fields? ["workflow_id", "work_item_id", "total_steps"]
    return .started (← f.required "workflow_id" Datum.text?)
      (← f.required "work_item_id" Datum.text?) (← f.required "total_steps" wordOfDatum?)
  | "step_executed" => do
    let f ← d.fields? ["step_id", "step_type", "status", "duration_ms", "depth", "error"]
    return .stepExecuted (← f.required "step_id" Datum.text?)
      (← f.required "step_type" Datum.text?) (← f.required "status" StepStatus.ofDatum?)
      (← f.required "duration_ms" wordOfDatum?) (← f.required "depth" wordOfDatum?)
      (← f.optional "error" Datum.text?)
  | "workflow_paused" => do
    let f ← d.fields? ["step_id", "reason"]
    return .paused (← f.required "step_id" Datum.text?) (← f.required "reason" Datum.text?)
  | "workflow_resumed" => do
    let f ← d.fields? ["step_id"]
    return .resumed (← f.required "step_id" Datum.text?)
  | "workflow_completed" => do
    let f ← d.fields? ["completed_steps", "total_steps", "duration_ms"]
    return .completed (← f.required "completed_steps" wordOfDatum?)
      (← f.required "total_steps" wordOfDatum?) (← f.required "duration_ms" wordOfDatum?)
  | "workflow_failed" => do
    let f ← d.fields? ["step_id", "error", "completed_steps", "total_steps"]
    return .failed (← f.required "step_id" Datum.text?) (← f.required "error" Datum.text?)
      (← f.required "completed_steps" wordOfDatum?) (← f.required "total_steps" wordOfDatum?)
  | "workflow_cancelled" => do
    let f ← d.fields? ["step_id", "completed_steps", "total_steps"]
    return .cancelled (← f.optional "step_id" Datum.text?)
      (← f.required "completed_steps" wordOfDatum?) (← f.required "total_steps" wordOfDatum?)
  | _ => none

/-- What has happened from data: a record with the kind among its entries, or a list that begins
with the kind. -/
def ofDatum? : Datum → Option EventData
  | .list (d :: ds) => do ofKind? (← d.text?) (.list ds)
  | .record entries => do
    let kinds := entries.filter fun (k, _) => k.text? == some "kind"
    match kinds with
    | [(_, d)] => ofKind? (← d.text?) (.record entries)
    | _ => none
  | _ => none

end EventData

/-- An event with its number and time. -/
structure Event where
  id : Uuid
  executionId : Uuid
  type : String
  timestamp : Timestamp
  sequenceNumber : Nat
  data : EventData
deriving Repr, DecidableEq, Inhabited

/-- The event that announces what has happened. -/
def Event.announce (id executionId : Uuid) (now : Timestamp) (sequenceNumber : Nat)
    (data : EventData) : Event :=
  { id, executionId, type := data.typeName, timestamp := now, sequenceNumber, data }

/-- An event as a value. -/
def Event.toJson (e : Event) : Json :=
  .ofFields [
    ("id", .str e.id.text),
    ("executionId", .str e.executionId.text),
    ("eventType", .str e.type),
    ("timestamp", .str e.timestamp.text),
    ("sequenceNumber", .ofNat e.sequenceNumber),
    ("eventData", e.data.toJson)]

/-- An event from data. -/
def Event.ofDatum? (d : Datum) : Option Event := do
  let f ← d.fields?
    ["id", "executionId", "eventType", "timestamp", "sequenceNumber", "eventData"]
  return {
    id := ← f.required "id" Uuid.ofDatum?
    executionId := ← f.required "executionId" Uuid.ofDatum?
    type := ← f.required "eventType" Datum.text?
    timestamp := ← f.required "timestamp" Timestamp.ofDatum?
    sequenceNumber := ← f.required "sequenceNumber" wordOfDatum?
    data := ← f.required "eventData" EventData.ofDatum? }

end WorkflowEngine
