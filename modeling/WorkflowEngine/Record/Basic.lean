import WorkflowEngine.Json.Basic
import WorkflowEngine.Timestamp
import WorkflowEngine.Uuid

/-!
# Records of runs

What is kept of a run of a workflow: where it stands, and what its steps at the top level have
produced.

## Main definitions

* `Status`: where a run stands
* `StepResult`: what a step has produced
* `Execution`: the record of a run
* `WorkItem`: what a run works on
-/

namespace WorkflowEngine

/-- Where a run stands. -/
inductive Status where
  | running
  | completed
  | failed
  | cancelled
deriving Repr, DecidableEq, Inhabited

/-- The run is over. -/
def Status.isTerminal : Status → Bool
  | .running => false
  | _ => true

/-- The name of a status. -/
def Status.name : Status → String
  | .running => "RUNNING"
  | .completed => "COMPLETED"
  | .failed => "FAILED"
  | .cancelled => "CANCELLED"

/-- How a step ended. -/
inductive StepStatus where
  | completed
  | failed
deriving Repr, DecidableEq, Inhabited

/-- The name of how a step ended. -/
def StepStatus.name : StepStatus → String
  | .completed => "completed"
  | .failed => "failed"

/-- What a step has produced. -/
structure StepResult where
  stepId : String
  status : StepStatus
  result : Option Json
  error : Option String
  durationMs : Nat
deriving Repr, Inhabited

/-- The result of a step that was done. -/
def StepResult.completed (stepId : String) (value : Json) (durationMs : Nat) : StepResult :=
  { stepId, status := .completed, result := some value, error := none, durationMs }

/-- The result of a step that failed. -/
def StepResult.failed (stepId error : String) (durationMs : Nat) : StepResult :=
  { stepId, status := .failed, result := none, error := some error, durationMs }

/-- The record of a run. -/
structure Execution where
  id : Uuid
  workflowId : String
  workItemId : String
  status : Status
  currentStepId : Option String
  stepResults : List StepResult
  branchName : Option String
  error : Option String
  startedAt : Timestamp
  updatedAt : Timestamp
  completedAt : Option Timestamp
deriving Repr, Inhabited

/-- The record of a run that begins. -/
def Execution.start (id : Uuid) (workflowId workItemId : String) (now : Timestamp) : Execution :=
  { id, workflowId, workItemId, status := .running, currentStepId := none, stepResults := [],
    branchName := none, error := none, startedAt := now, updatedAt := now, completedAt := none }

/-- The number of results of steps that were done. -/
def Execution.completedCount (e : Execution) : Nat :=
  (e.stepResults.filter fun r => r.status = .completed).length

/-- What a run works on. -/
structure WorkItem where
  id : String
  title : String
  description : Option String
  repository : Option String
  fields : Dict Json
deriving Repr, Inhabited

end WorkflowEngine
