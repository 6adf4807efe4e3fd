import WorkflowEngine.Record.Format
import WorkflowEngine.Template.Evaluation

/-!
# The context of a run

What expressions see while a workflow runs: the work item, the run itself, the variables of the
workflow, the results of steps so far, and the loops around.

## Main definitions

* `Context`: what expressions see
* `Context.toJson`: the object that expressions are evaluated in
* `Context.build`: the context at the start of a run
* `Context.record`, `Context.enterLoop`, `Context.exitLoop`: how it changes
-/

namespace WorkflowEngine

/-- The run that a context belongs to. -/
structure Identity where
  executionId : Option Uuid := none
  workflowId : String := ""
  workItemId : String := ""
  branchName : Option String := none
deriving Repr, DecidableEq, Inhabited

/-- What expressions see. The loops are those around, the innermost first, with their iterations. -/
structure Context where
  workItem : Json := .null
  identity : Identity := {}
  vars : Dict Json := []
  steps : Dict Json := []
  results : List StepResult := []
  loops : List (String × Nat) := []
deriving Repr, Inhabited

namespace Context

/-- A context that holds only a work item. -/
def ofWorkItem (workItem : Json) : Context := { workItem }

/-- An iteration as a value. -/
def iterationJson (n : Nat) : Json := .ofFields [("iteration", .ofNat n)]

/-- The fields that tell the loops around. -/
def loopFields (loops : List (String × Nat)) : List (String × Json) :=
  let all := Json.ofFields (loops.reverse.map fun (id, n) => (id, iterationJson n))
  match loops with
  | [] => [("loops", all)]
  | (id, n) :: _ =>
    [("loop", .ofFields [("id", .str id), ("iteration", .ofNat n)]), ("loops", all)]

/-- The object that expressions are evaluated in. -/
def toJson (c : Context) : Json :=
  .ofFields <|
    [("workItem", c.workItem),
      ("steps", .obj c.steps),
      ("stepResults", .arr (c.results.map StepResult.toJson)),
      ("execution", .ofFields [
        ("id", .ofText? (c.identity.executionId.map Uuid.text)),
        ("workflowId", .str c.identity.workflowId),
        ("workItemId", .str c.identity.workItemId),
        ("branchName", .ofText? c.identity.branchName)]),
      ("branchName", .ofText? c.identity.branchName),
      ("variables", .obj c.vars)] ++ loopFields c.loops

/-- The run as its record tells it now. -/
def refresh (c : Context) (e : Execution) : Context :=
  { c with identity :=
      { executionId := some e.id
        workflowId := e.workflowId
        workItemId := e.workItemId
        branchName := e.branchName } }

/-- What expressions see of a step. -/
def stepJson (r : StepResult) : Json :=
  .ofFields [("status", .str r.status.name), ("output", r.result.getD .null),
    ("error", .ofText? r.error)]

/-- One more result. -/
def record (c : Context) (r : StepResult) : Context :=
  { c with steps := Dict.insert c.steps r.stepId (stepJson r), results := c.results ++ [r] }

/-- How long the step took whose result was recorded last. -/
def lastDurationMs (c : Context) : Nat := (c.results.getLast?.map StepResult.durationMs).getD 0

/-- The innermost loop is in an iteration; a loop that is not the innermost one becomes it. -/
def enterLoop (c : Context) (id : String) (iteration : Nat) : Context :=
  match c.loops with
  | (inner, n) :: outer =>
    if inner == id then { c with loops := (id, iteration) :: outer }
    else { c with loops := (id, iteration) :: (inner, n) :: outer }
  | [] => { c with loops := [(id, iteration)] }

/-- A loop is left, and the loops within it. -/
def exitLoop (c : Context) (id : String) : Context :=
  match c.loops.dropWhile fun l => l.1 != id with
  | [] => c
  | _ :: outer => { c with loops := outer }

/-- A variable has a value. -/
def setVariable (c : Context) (name : String) (value : Json) : Context :=
  { c with vars := Dict.insert c.vars name value }

/-- The value of a variable. -/
def valueOf? (c : Context) (name : String) : Option Json := Dict.find? c.vars name

/-- What expressions see of a work item: its record, and its further fields where no field of the
record has their name. -/
def workItemJson (id : String) : Option WorkItem → Json
  | none => .ofFields [("id", .str id)]
  | some item =>
    match item.toJson with
    | .obj fields =>
      .obj (item.fields.foldl (fun d (k, v) => if Dict.hasKey d k then d else Dict.insert d k v)
        fields)
    | v => v

variable (engine : Expr.Engine)

/-- The value of a variable as written: a text with placeholders is a template. -/
def resolveVariable (c : Context) : Json → Except Template.EvalError Json
  | .str template =>
    if Text.contains template "\x7b\x7b" then Template.evaluate engine template c.toJson
    else .ok (.str template)
  | v => .ok v

/-- The variables in order; each may refer to those before it. -/
def resolveVariables (c : Context) : List (String × Json) → Except Template.EvalError Context
  | [] => .ok c
  | (name, v) :: rest => do
    let value ← c.resolveVariable engine v
    resolveVariables (c.setVariable name value) rest

/-- The context at the start of a run. -/
def build (e : Execution) (item : Option WorkItem) (vars : Dict Json) :
    Except Template.EvalError Context :=
  let c := (ofWorkItem (workItemJson e.workItemId item)).refresh e
  (e.stepResults.foldl record c).resolveVariables engine vars

end Context

end WorkflowEngine
