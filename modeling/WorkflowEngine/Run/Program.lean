import WorkflowEngine.Context
import WorkflowEngine.Record.Call
import WorkflowEngine.Record.Event
import WorkflowEngine.Run.Outcome
import WorkflowEngine.Store

/-!
# Programs

What drives a run is a program: it asks for one thing after the other and goes on with what it is
told. Everything that a run touches, the store, the clock, those who do its steps, lies behind the
requests, and so a program is nothing but a tree.

## Main definitions

* `Assignment`: a run of a workflow on a work item
* `Request`, `Request.Reply`: what a program may ask for, and what it is told
* `Program`: programs
* `Program.bind`: one program after the other
* `Program.runSequence`: steps one after the other
-/

namespace WorkflowEngine

/-- A run of a workflow on a work item. -/
structure Assignment where
  executionId : Uuid
  workflowId : String
  workItemId : String
deriving Repr, DecidableEq, Inhabited

/-- What a program may ask for. -/
inductive Request where
  | getWorkflows
  | getWorkflow (id : String)
  | createExecution (record : Execution)
  | getExecution (id : Uuid)
  | updateExecution (record : Execution)
  | getWorkItem (id : String)
  | now
  | newId
  /-- A run begins: from now on it can be cancelled, and its events are numbered from one. -/
  | beginRun (id : Uuid)
  | endRun (id : Uuid)
  /-- Cancels a run if it has begun and not ended. -/
  | cancelRun (id : Uuid)
  | isCancelled (id : Uuid)
  | emit (id : Uuid) (data : EventData)
  /-- Tells of a step that failed. -/
  | report (id : Uuid) (stepId : String) (error : StepError)
  /-- Runs a step at the top level of a run. -/
  | runStep (run : Assignment) (step : Step) (context : Context)
  /-- Has a simple step done, within a number of seconds if one is given. -/
  | execute (request : StepRequest) (caller : Caller) (timeoutSecs : Option Nat)
  /-- Asks for an approval and waits for it, but no longer than a number of seconds. -/
  | awaitApproval (id : Uuid) (stepId : String) (timeoutSecs : Nat) (prompt : Option String)
  /-- Leaves a simple step to someone as a whole. -/
  | delegate (head : Head) (leaf : Leaf) (depth : Nat) (context : Context)

/-- What a program is told. -/
def Request.Reply : Request → Type
  | .getWorkflows => Except StoreError (List Workflow)
  | .getWorkflow _ => Except StoreError (Option Workflow)
  | .createExecution _ => Except StoreError Unit
  | .getExecution _ => Except StoreError (Option Execution)
  | .updateExecution _ => Except StoreError Unit
  | .getWorkItem _ => Except StoreError (Option WorkItem)
  | .now => Timestamp
  | .newId => Uuid
  | .beginRun _ => Unit
  | .endRun _ => Unit
  | .cancelRun _ => Unit
  | .isCancelled _ => Bool
  | .emit .. => Unit
  | .report .. => Unit
  | .runStep .. => Outcome × Context
  /- There is no response if the time is up. -/
  | .execute .. => Option StepResponse
  | .awaitApproval .. => Verdict
  | .delegate .. => Except StepError Json

/-- A program that ends with a value. -/
inductive Program (α : Type) where
  | done (value : α)
  | ask (request : Request) (next : request.Reply → Program α)

namespace Program

variable {α β : Type}

/-- Asks for one thing. -/
def request (r : Request) : Program r.Reply := .ask r .done

/-- One program after the other. -/
def bind (p : Program α) (next : α → Program β) : Program β :=
  match p with
  | .done a => next a
  | .ask r k => .ask r fun reply => (k reply).bind next

instance : Monad Program where
  pure := .done
  bind := bind

/-- The run is cancelled. -/
def isCancelled (id : Uuid) : Program Bool := request (.isCancelled id)

/-- Announces what has happened. -/
def emit (id : Uuid) (data : EventData) : Program Unit := request (.emit id data)

/-- Tells of a step that failed. -/
def report (id : Uuid) (stepId : String) (error : StepError) : Program Unit :=
  request (.report id stepId error)

/-- Runs steps one after the other until one fails. -/
def runSequence (a : Assignment) : List Step → Context → Program (Except StepError Unit × Context)
  | [], c => return (.ok (), c)
  | s :: steps, c => do
    if ← isCancelled a.executionId then return (.error .cancelled, c)
    let (outcome, c) : Outcome × Context ← request (.runStep a s c)
    match outcome with
    | .ok _ => runSequence a steps c
    | .error e => return (.error e, c)

end Program

end WorkflowEngine
