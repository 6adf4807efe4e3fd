import WorkflowEngine.Run.Leaf
import WorkflowEngine.Workflow.Resolution

/-!
# Orchestration of runs

A run takes its workflow from the store, resolves it, and runs its steps at the top level one after
the other. Before each of them it looks at its record again, and after each it keeps the result
there, so that it sees what others change meanwhile. It ends as completed, failed or cancelled.

## Main definitions

* `RunError`, `RunError.message`: why there is no summary of a run
* `Summary`: what a run that was completed or cancelled reports
* `Orchestration`: programs that may end with a `RunError`
* `Orchestration.start`, `Orchestration.run`, `Orchestration.execute`, `Orchestration.cancel`,
  `Orchestration.resolve`: what can be asked of the engine
-/

namespace WorkflowEngine

/-- Why there is no summary of a run. -/
inductive RunError where
  | workflow (error : WorkflowError)
  | store (error : StoreError)
  | expression (error : Template.EvalError)
  | notFound (id : Uuid)
  | alreadyFinished (id : Uuid) (status : Status)
  | stepFailed (stepId : String) (error : StepError)

/-- The text that says why there is no summary of a run. -/
def RunError.message : RunError → String
  | .workflow e => e.message
  | .store e => "store error: " ++ e.message
  | .expression e => "expression error: " ++ e.message
  | .notFound id => "execution not found: " ++ id.text
  | .alreadyFinished id status =>
    "execution " ++ id.text ++ " already finished with status " ++ status.name
  | .stepFailed stepId e => "workflow failed at step '" ++ stepId ++ "': " ++ e.message

/-- What a run that was completed or cancelled reports. -/
structure Summary where
  executionId : Uuid
  status : Status
  completedSteps : Nat
  totalSteps : Nat
  stepResults : List StepResult
deriving Repr, Inhabited

/-- Programs that may end with an error. -/
abbrev Orchestration (α : Type) := ExceptT RunError Program α

/-! ### The record of a run -/

/-- The record with another time of change. -/
def Execution.touch (e : Execution) (now : Timestamp) : Execution := { e with updatedAt := now }

/-- The record of a run that comes to a step. -/
def Execution.atStep (e : Execution) (stepId : String) (now : Timestamp) : Execution :=
  { e.touch now with currentStepId := some stepId }

/-- The record with one more result. -/
def Execution.addResult (e : Execution) (r : StepResult) (now : Timestamp) : Execution :=
  { e.touch now with stepResults := e.stepResults ++ [r] }

/-- The record of a run that is over. -/
def Execution.finish (e : Execution) (status : Status) (now : Timestamp) : Execution :=
  { e.touch now with status, completedAt := some now }

/-- The record of a run that was completed. -/
def Execution.complete (e : Execution) (now : Timestamp) : Execution :=
  { e.finish .completed now with currentStepId := none }

/-- The record of a run that failed. -/
def Execution.fail (e : Execution) (error : String) (now : Timestamp) : Execution :=
  { e.finish .failed now with error := some error }

/-- What a record reports. -/
def Execution.summary (e : Execution) (totalSteps : Nat) : Summary :=
  { executionId := e.id, status := e.status, completedSteps := e.completedCount, totalSteps,
    stepResults := e.stepResults }

namespace Orchestration

variable {α : Type}

/-- Asks for one thing that cannot fail. -/
def lift (p : Program α) : Orchestration α := ExceptT.lift p

/-- Asks the store. -/
def stored (p : Program (Except StoreError α)) : Orchestration α :=
  ExceptT.mk (p.bind fun r => .done (r.mapError .store))

/-- The record of a run. -/
def load (id : Uuid) : Orchestration Execution := do
  match ← stored (Program.request (.getExecution id)) with
  | some e => return e
  | none => throw (.notFound id)

/-- Keeps the record of a run as it is after a change at this time. -/
def update (e : Execution) (change : Execution → Timestamp → Execution) :
    Orchestration Execution := do
  let now : Timestamp ← lift (Program.request .now)
  let e := change e now
  stored (Program.request (.updateExecution e))
  return e

/-! ### Beginning -/

/-- All workflows of the store, as a catalog. -/
def catalog : Orchestration Catalog := do
  let ws : List Workflow ← stored (Program.request .getWorkflows)
  return Dict.ofList (ws.map fun w => (w.id, w))

/-- The resolved workflow of an id, if it has no errors. -/
def resolve (id : String) : Orchestration Workflow := do
  match (← catalog).resolve id with
  | .ok w => ExceptT.mk (.done (w.checked.mapError .workflow))
  | .error e => throw (.workflow (.lineage e))

/-- The workflow that a run runs. -/
def runnable (id : String) : Orchestration Workflow := do
  let w ← resolve id
  if w.isAbstract then throw (.workflow (.notRunnable w.id))
  return w

/-- Keeps a record of a run that is to begin. -/
def start (workflowId workItemId : String) : Orchestration Execution := do
  let w : Option Workflow ← stored (Program.request (.getWorkflow workflowId))
  if w.isNone then throw (.workflow (.lineage (.notFound workflowId)))
  let id : Uuid ← lift (Program.request .newId)
  let now : Timestamp ← lift (Program.request .now)
  let e := Execution.start id workflowId workItemId now
  stored (Program.request (.createExecution e))
  return e

/-- A run that cannot begin has failed, unless it is over. -/
def markFailed (id : Uuid) (error : String) : Orchestration Unit := do
  let e ← load id
  if e.status.isTerminal then return ()
  let _ ← update e fun e now => e.fail error now

/-! ### Ending -/

/-- A run ends as cancelled, at a step if it came to one. A record that is over stays as it is. -/
def finishCancelled (a : Assignment) (totalSteps : Nat) (stepId : Option String) :
    Orchestration Summary := do
  let e ← load a.executionId
  let e ← if e.status.isTerminal then pure e
    else update e fun e now => e.finish .cancelled now
  let summary := e.summary totalSteps
  lift (Program.emit a.executionId
    (.cancelled stepId summary.completedSteps summary.totalSteps))
  return summary

/-- A run comes to its end, but its record is over already. -/
def finishTerminal (a : Assignment) (totalSteps : Nat) (status : Status)
    (stepId : Option String) : Orchestration Summary :=
  match status with
  | .cancelled => finishCancelled a totalSteps stepId
  | status => throw (.alreadyFinished a.executionId status)

/-- A run ends as failed. -/
def finishFailed (a : Assignment) (totalSteps : Nat) (stepId : String) (error : StepError) :
    Orchestration Summary := do
  let e ← load a.executionId
  if e.status.isTerminal then finishTerminal a totalSteps e.status (some stepId)
  else do
    let e ← update e fun e now => e.fail error.message now
    lift (Program.emit a.executionId (.failed stepId error.message e.completedCount totalSteps))
    throw (.stepFailed stepId error)

/-- A run ends as completed. How long it took as a whole is not measured. -/
def finishCompleted (a : Assignment) (totalSteps : Nat) : Orchestration Summary := do
  let e ← load a.executionId
  if e.status.isTerminal then finishTerminal a totalSteps e.status none
  else do
    let e ← update e Execution.complete
    let summary := e.summary totalSteps
    lift (Program.emit a.executionId
      (.completed summary.completedSteps summary.totalSteps 0))
    return summary

/-! ### Running -/

/-- The run is cancelled, or its record says so. -/
def cancelRequested (id : Uuid) : Orchestration Bool := do
  if ← lift (Program.isCancelled id) then return true
  return (← load id).status == .cancelled

/-- Keeps a result in the record as it is now. -/
def persist (id : Uuid) (r : StepResult) : Orchestration Unit := do
  let e ← load id
  let _ ← update e fun e now => e.addResult r now

/-- The steps at the top level, one after the other. -/
def runSteps (a : Assignment) (totalSteps : Nat) (steps : List Step) (c : Context) :
    Orchestration Summary :=
  match steps with
  | [] => do
    if ← cancelRequested a.executionId then finishCancelled a totalSteps none
    else finishCompleted a totalSteps
  | s :: steps => do
    let e ← load a.executionId
    if (← lift (Program.isCancelled a.executionId)) || e.status == .cancelled then
      finishCancelled a totalSteps (some s.id)
    else do
      let c := c.refresh e
      let _ ← update e fun e now => e.atStep s.id now
      let (outcome, c) : Outcome × Context ← lift (Program.request (.runStep a s c))
      if outcome.isCancelled then finishCancelled a totalSteps (some s.id)
      else do
        lift (announceStep a s 0 outcome c.lastDurationMs)
        persist a.executionId (.ofOutcome s.id outcome c.lastDurationMs)
        match outcome.failure? with
        | none => runSteps a totalSteps steps c
        | some error => do
          if ← cancelRequested a.executionId then finishCancelled a totalSteps (some s.id)
          else if s.policy.continueOnError then runSteps a totalSteps steps c
          else finishFailed a totalSteps s.id error

/-- A run has begun: its steps in the context at its start. -/
def drive (engine : Expr.Engine) (e : Execution) (w : Workflow) : Orchestration Summary := do
  let item : Option WorkItem ← stored (Program.request (.getWorkItem e.workItemId))
  match Context.build engine e item w.vars with
  | .error error => do
    markFailed e.id error.message
    throw (.expression error)
  | .ok c => do
    let a : Assignment := ⟨e.id, e.workflowId, e.workItemId⟩
    let totalSteps := w.steps.length
    lift (Program.emit e.id (.started e.workflowId e.workItemId totalSteps))
    runSteps a totalSteps w.steps c

/-- What a program ends with, once the run is ended too. -/
def ending (id : Uuid) (p : Orchestration α) : Orchestration α :=
  ExceptT.mk ((ExceptT.run p).bind fun r => (Program.request (.endRun id)).bind fun _ => .done r)

/-- Runs to the end what was started. -/
def run (engine : Expr.Engine) (id : Uuid) : Orchestration Summary := do
  let e ← load id
  if e.status.isTerminal then throw (.alreadyFinished id e.status)
  match ← lift (ExceptT.run (runnable e.workflowId)) with
  | .error error => do
    markFailed id error.message
    throw error
  | .ok w => do
    let () ← lift (Program.request (.beginRun id))
    ending id (drive engine e w)

/-- Starts a run and runs it to the end. -/
def execute (engine : Expr.Engine) (workflowId workItemId : String) : Orchestration Summary := do
  let e ← start workflowId workItemId
  run engine e.id

/-- Cancels a run: its record is over, and if it is running it is told. -/
def cancel (id : Uuid) : Orchestration Unit := do
  let e ← load id
  if e.status.isTerminal then throw (.alreadyFinished id e.status)
  let _ ← update e fun e now => e.finish .cancelled now
  let () ← lift (Program.request (.cancelRun id))

end Orchestration

end WorkflowEngine
