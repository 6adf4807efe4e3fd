import WorkflowEngine.Data.Fields
import WorkflowEngine.Document.Reading
import WorkflowEngine.Record.Basic

/-!
# Records as values

## Main definitions

* `StepResult.toJson`, `Execution.toJson`, `WorkItem.toJson`: records as values
* `StepResult.ofDatum?`, `Execution.ofDatum?`, `WorkItem.ofDatum?`: records from data
-/

namespace WorkflowEngine

open Data

/-- A status from data. -/
def Status.ofDatum? : Datum → Option Status :=
  readWord [("RUNNING", .running), ("COMPLETED", .completed), ("FAILED", .failed),
    ("CANCELLED", .cancelled)]

/-- How a step ended, from data. -/
def StepStatus.ofDatum? : Datum → Option StepStatus :=
  readWord [("completed", .completed), ("failed", .failed)]

/-- A number that fits into 64 bits, from data. -/
def wordOfDatum? : Datum → Option Nat := Datum.nat? (Bits.words 64)

/-- What a step has produced as a value. -/
def StepResult.toJson (r : StepResult) : Json :=
  .ofFields? [
    ("stepId", some (.str r.stepId)),
    ("status", some (.str r.status.name)),
    ("result", r.result),
    ("error", r.error.map .str),
    ("durationMs", some (.ofNat r.durationMs))]

/-- What a step has produced from data. -/
def StepResult.ofDatum? (d : Datum) : Option StepResult := do
  let f ← d.fields? ["stepId", "status", "result", "error", "durationMs"]
  return {
    stepId := ← f.required "stepId" Datum.text?
    status := ← f.required "status" StepStatus.ofDatum?
    result := ← f.optional "result" Datum.json?
    error := ← f.optional "error" Datum.text?
    durationMs := ← f.withDefault "durationMs" 0 wordOfDatum? }

/-- The record of a run as a value. -/
def Execution.toJson (e : Execution) : Json :=
  .ofFields? [
    ("executionId", some (.str e.id.text)),
    ("workflowId", some (.str e.workflowId)),
    ("workItemId", some (.str e.workItemId)),
    ("status", some (.str e.status.name)),
    ("currentStepId", e.currentStepId.map .str),
    ("stepResults", some (.arr (e.stepResults.map StepResult.toJson))),
    ("branchName", e.branchName.map .str),
    ("error", e.error.map .str),
    ("startedAt", some (.str e.startedAt.text)),
    ("updatedAt", some (.str e.updatedAt.text)),
    ("completedAt", e.completedAt.map fun t => .str t.text)]

/-- The record of a run from data. -/
def Execution.ofDatum? (d : Datum) : Option Execution := do
  let f ← d.fields? ["executionId", "workflowId", "workItemId", "status", "currentStepId",
    "stepResults", "branchName", "error", "startedAt", "updatedAt", "completedAt"]
  return {
    id := ← f.required "executionId" Uuid.ofDatum?
    workflowId := ← f.required "workflowId" Datum.text?
    workItemId := ← f.required "workItemId" Datum.text?
    status := ← f.required "status" Status.ofDatum?
    currentStepId := ← f.optional "currentStepId" Datum.text?
    stepResults := ← f.withDefault "stepResults" [] (readList StepResult.ofDatum?)
    branchName := ← f.optional "branchName" Datum.text?
    error := ← f.optional "error" Datum.text?
    startedAt := ← f.required "startedAt" Timestamp.ofDatum?
    updatedAt := ← f.required "updatedAt" Timestamp.ofDatum?
    completedAt := ← f.optional "completedAt" Timestamp.ofDatum? }

/-- What a run works on as a value. -/
def WorkItem.toJson (item : WorkItem) : Json :=
  .ofFields? [
    ("id", some (.str item.id)),
    ("title", some (.str item.title)),
    ("description", item.description.map .str),
    ("repository", item.repository.map .str),
    ("fields", if item.fields.isEmpty then none else some (.obj item.fields))]

/-- What a run works on from data. -/
def WorkItem.ofDatum? (d : Datum) : Option WorkItem := do
  let f ← d.fields? ["id", "title", "description", "repository", "fields"]
  return {
    id := ← f.required "id" Datum.text?
    title := ← f.required "title" Datum.text?
    description := ← f.optional "description" Datum.text?
    repository := ← f.optional "repository" Datum.text?
    fields := ← f.withDefault "fields" [] (readDict Datum.json?) }

end WorkflowEngine
