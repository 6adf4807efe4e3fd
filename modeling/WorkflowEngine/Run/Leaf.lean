import WorkflowEngine.Config.Basic
import WorkflowEngine.Run.Program

/-!
# Simple steps

A simple step is done by others. Its templates are evaluated, it is tried again if it fails, and it
may take only so long. A step whose action is an approval is not handed out: the run pauses until
there is a decision.

## Main definitions

* `Leaf.request`: what is asked for a simple step
* `Leaf.dispatch`: a simple step is handed out, once or several times
* `Leaf.awaitApproval`: the run pauses for an approval
* `Leaf.run`: one or the other
* `tellFinished`: what is told of a step that is over
-/

namespace WorkflowEngine

namespace Leaf

/-- The action of steps that ask for an approval. -/
def approvalAction : String := "human.approval"

variable (engine : Expr.Engine)

mutual
/-- A value with each text in it evaluated as a template. -/
def resolve (scope : Json) : Json → Except Template.EvalError Json
  | .str template => Template.evaluate engine template scope
  | .arr items => (resolveItems scope items).map .arr
  | .obj fields => (resolveFields scope fields).map .obj
  | v => .ok v

/-- Elements with each text in them evaluated. -/
def resolveItems (scope : Json) : List Json → Except Template.EvalError (List Json)
  | [] => .ok []
  | v :: vs => do return (← resolve scope v) :: (← resolveItems scope vs)

/-- Fields with each text in them evaluated. -/
def resolveFields (scope : Json) :
    List (String × Json) → Except Template.EvalError (List (String × Json))
  | [] => .ok []
  | (k, v) :: fs => do return (k, ← resolve scope v) :: (← resolveFields scope fs)
end

/-- The text of the prompt of a simple step, if it has one. -/
def promptText (leaf : Leaf) (scope : Json) : Except Template.EvalError (Option String) :=
  match leaf.prompt with
  | some template => (Template.render engine template scope).map some
  | none => .ok none

/-- What is asked for a simple step: its configuration, and its prompt and model among that. -/
def request (head : Head) (leaf : Leaf) (scope : Json) :
    Except Template.EvalError StepRequest := do
  let params ← resolveFields engine scope leaf.config
  let prompt ← promptText engine leaf scope
  let put := fun (d : Dict Json) (key : String) (text : Option String) =>
    match text with
    | some s => Dict.insert d key (.str s)
    | none => d
  return {
    stepId := head.id
    stepType := leaf.kind.name
    action := leaf.action
    params := put (put params "prompt" prompt) "model" leaf.model }

/-- How often a simple step is tried at most; the counter has 32 bits. -/
def attempts (config : Config) (policy : Policy) : Nat :=
  nextCount (min (policy.retryCount.getD 0) config.maxLeafRetries)
where
  /-- The count that follows. -/
  nextCount (n : Nat) : Nat := (n + 1) % Bits.words 32

/-- The seconds that a simple step may take. -/
def timeout (config : Config) (policy : Policy) : Option Nat :=
  policy.timeoutSecs <|> config.defaultStepTimeoutSecs

/-- The seconds that an approval may take. -/
def approvalTimeout (config : Config) (policy : Policy) : Nat :=
  policy.timeoutSecs.getD config.approvalTimeoutSecs

/-- Why a simple step failed that has a response, or none in time. -/
def failure (r : StepRequest) (timeoutSecs : Option Nat) : Option StepResponse → StepError
  | some response =>
    .executionFailed r.stepId (response.error.getD "step executor reported failure")
  | none => .timeout r.stepId (timeoutSecs.getD 0)

/-- Hands out a simple step until that is a success, at most `tries` times. The error is that of the
last time. -/
def attempt (r : StepRequest) (caller : Caller) (timeoutSecs : Option Nat) (tries : Nat)
    (last : Option StepError) : Program (Except StepError Json) :=
  match tries with
  | 0 => return .error (last.getD (.executionFailed r.stepId "step was never attempted"))
  | tries + 1 => do
    if last.isSome then
      if ← Program.isCancelled caller.executionId then return .error .cancelled
    let response : Option StepResponse ← Program.request (.execute r caller timeoutSecs)
    match response with
    | some ⟨true, value, _⟩ => return .ok (value.getD .null)
    | other => attempt r caller timeoutSecs tries (some (failure r timeoutSecs other))

variable (config : Config) (a : Assignment)

/-- A simple step is handed out. -/
def dispatch (head : Head) (leaf : Leaf) (depth : Nat) (c : Context) :
    Program (Except StepError Json) :=
  match request engine head leaf c.toJson with
  | .error e => return .error (.expression head.id e.message)
  | .ok r =>
    let caller : Caller :=
      { executionId := a.executionId
        workflowId := a.workflowId
        workItemId := a.workItemId
        branchName := c.identity.branchName
        workItem := c.workItem
        depth }
    attempt r caller (timeout config head.policy) (attempts config head.policy) none

/-- What a verdict means for a step. -/
def ofVerdict (id : String) : Verdict → Except StepError Json
  | .decided ⟨true, reason⟩ =>
    .ok (.ofFields [("approved", .bool true), ("reason", .ofText? reason)])
  | .decided ⟨false, reason⟩ => .error (.approvalRejected id reason)
  | .failed message => .error (.executionFailed id message)
  | .timedOut => .error (.approvalTimeout id)
  | .cancelled => .error .cancelled

/-- The run pauses for an approval, and goes on if there is one. -/
def awaitApproval (head : Head) (leaf : Leaf) (c : Context) : Program (Except StepError Json) := do
  if ← Program.isCancelled a.executionId then return .error .cancelled
  match promptText engine leaf c.toJson with
  | .error e => return .error (.expression head.id e.message)
  | .ok prompt =>
    let reason := prompt.getD ("awaiting approval for step '" ++ head.id ++ "'")
    Program.emit a.executionId (.paused head.id reason)
    let verdict : Verdict ← Program.request
      (.awaitApproval a.executionId head.id (approvalTimeout config head.policy) prompt)
    let result := ofVerdict head.id verdict
    if result.isOk then Program.emit a.executionId (.resumed head.id)
    return result

/-- A simple step is done. -/
def run (head : Head) (leaf : Leaf) (depth : Nat) (c : Context) :
    Program (Except StepError Json) :=
  if leaf.action == approvalAction then awaitApproval engine config a head leaf c
  else dispatch engine config a head leaf depth c

end Leaf

/-- The event of a step that is over. -/
def EventData.ofOutcome (step : Step) (depth : Nat) (o : Outcome) (durationMs : Nat) : EventData :=
  .stepExecuted step.id step.typeName (if o.failure?.isSome then .failed else .completed) durationMs
    depth (o.failure?.map StepError.message)

/-- Announces that a step is over, and tells of its failure. -/
def announceStep (a : Assignment) (step : Step) (depth : Nat) (o : Outcome) (durationMs : Nat) :
    Program Unit := do
  Program.emit a.executionId (.ofOutcome step depth o durationMs)
  match o.failure? with
  | some e => Program.report a.executionId step.id e
  | none => return ()

/-- What is told of a step that is over: nothing at the top level, whose steps the run itself tells
of, and nothing of a step that was cancelled. -/
def tellFinished (a : Assignment) (step : Step) (depth : Nat) (o : Outcome) (durationMs : Nat) :
    Program Unit :=
  if depth = 0 || o.isCancelled then return ()
  else announceStep a step depth o durationMs

end WorkflowEngine
