import WorkflowEngine.Json.Basic
import WorkflowEngine.Record.Basic

/-!
# Outcomes of steps

## Main definitions

* `StepError`: why a step failed, with `StepError.message` and `StepError.reason`
* `StepError.stage`: where the failure arose
* `StepOutput`: what a step has produced, with its value `StepOutput.toJson`
* `Outcome`: one or the other
* `StepResult.ofOutcome`: the result that is kept of an outcome
-/

namespace WorkflowEngine

/-- Why a step failed. All but cancellations name the step. -/
inductive StepError where
  | executionFailed (stepId message : String)
  | approvalRejected (stepId : String) (reason : Option String)
  | approvalTimeout (stepId : String)
  /-- Steps of a parallel step failed; each with its reason. -/
  | parallelFailure (stepId : String) (failures : List (String × String))
  | timeout (stepId : String) (seconds : Nat)
  | expression (stepId message : String)
  | cancelled
deriving Repr, DecidableEq, Inhabited

namespace StepError

/-- Failures as text. -/
def failuresText (failures : List (String × String)) : String :=
  "; ".intercalate (failures.map fun (id, reason) => id ++ ": " ++ reason)

/-- The text that tells the step and the reason. -/
def message : StepError → String
  | .executionFailed id m => "step '" ++ id ++ "' failed: " ++ m
  | .approvalRejected id reason =>
    "approval for step '" ++ id ++ "' was rejected" ++
      match reason with
      | some r => ": " ++ r
      | none => ""
  | .approvalTimeout id => "approval for step '" ++ id ++ "' timed out"
  | .parallelFailure id failures =>
    "parallel step '" ++ id ++ "' failed: " ++ failuresText failures
  | .timeout id seconds => "step '" ++ id ++ "' timed out after " ++ toString seconds ++ "s"
  | .expression id m => "step '" ++ id ++ "': expression error: " ++ m
  | .cancelled => "execution cancelled"

/-- The step that failed. -/
def stepId? : StepError → Option String
  | .executionFailed id _ => some id
  | .approvalRejected id _ => some id
  | .approvalTimeout id => some id
  | .parallelFailure id _ => some id
  | .timeout id _ => some id
  | .expression id _ => some id
  | .cancelled => none

/-- The reason alone. -/
def reason : StepError → String
  | .executionFailed _ m => m
  | .approvalRejected _ reason => reason.getD "approval rejected"
  | .approvalTimeout _ => "approval timed out"
  | .parallelFailure _ failures => failuresText failures
  | .timeout _ seconds => "timed out after " ++ toString seconds ++ "s"
  | .expression _ m => m
  | .cancelled => "cancelled"

/-- The run was cancelled. -/
def isCancelled : StepError → Bool
  | .cancelled => true
  | _ => false

end StepError

/-- Where a failure arose: in a step, or in the approval that it asks for. -/
inductive Stage where
  | step
  | approval
deriving Repr, DecidableEq, Inhabited

/-- The name of where a failure arose. -/
def Stage.name : Stage → String
  | .step => "step"
  | .approval => "approval"

/-- Where a failure arose. -/
def StepError.stage : StepError → Stage
  | .approvalRejected .. => .approval
  | .approvalTimeout _ => .approval
  | _ => .step

/-- Why a loop ended. -/
inductive LoopExit where
  | maxIterations
  | countReached
  | conditionFalse
  | breakOn
  | errorBreak
  | succeeded
deriving Repr, DecidableEq, Inhabited

/-- The name of why a loop ended. -/
def LoopExit.name : LoopExit → String
  | .maxIterations => "max_iterations"
  | .countReached => "count_reached"
  | .conditionFalse => "condition_false"
  | .breakOn => "break_on"
  | .errorBreak => "error_break"
  | .succeeded => "succeeded"

/-- What a step has produced. -/
inductive StepOutput where
  | value (v : Json)
  /-- A simple step failed, but its failure does not count. -/
  | recovered (error : StepError)
  /-- The branch that a conditional took, the number of its steps, and its failure if that does not
  count. -/
  | branch (name : Option String) (executed : Nat) (error : Option String)
  | loop (iterations : Nat) (exit : LoopExit)
  | parallel (completed : Nat)
deriving Repr, Inhabited

/-- What a step has produced as a value. -/
def StepOutput.toJson : StepOutput → Json
  | .value v => v
  | .recovered e => .ofFields [("recovered", .bool true), ("error", .str e.message)]
  | .branch name executed error =>
    .ofFields [("branch", .ofText? name), ("executed", .ofNat executed), ("error", .ofText? error)]
  | .loop iterations exit =>
    .ofFields [
      ("message", .str ("loop completed after " ++ toString iterations ++ " iteration(s)")),
      ("iterations", .ofNat iterations),
      ("exit", .str exit.name)]
  | .parallel completed => .ofFields [("completed", .ofNat completed)]

/-- What a step has produced, or why it failed. -/
abbrev Outcome := Except StepError StepOutput

/-- The failure of an outcome, whether it counts or not. -/
def Outcome.failure? : Outcome → Option StepError
  | .error e => some e
  | .ok (.recovered e) => some e
  | .ok _ => none

/-- The outcome is that the run was cancelled. -/
def Outcome.isCancelled : Outcome → Bool
  | .error e => e.isCancelled
  | .ok _ => false

/-- The result that is kept of an outcome. -/
def StepResult.ofOutcome (stepId : String) (o : Outcome) (durationMs : Nat) : StepResult :=
  match o with
  | .error e => .failed stepId e.message durationMs
  | .ok (.recovered e) => .failed stepId e.message durationMs
  | .ok output => .completed stepId output.toJson durationMs

end WorkflowEngine
