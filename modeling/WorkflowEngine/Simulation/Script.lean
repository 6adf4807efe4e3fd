import WorkflowEngine.Run.Orchestration
import WorkflowEngine.Run.World

/-!
# Scripts

A script says what others do when a run waits for them: how long they take, what they change
meanwhile, and what they answer.

## Main definitions

* `Patch`, `World.patch`: changes of a record from outside
* `Answer`: answers of others
* `Reaction`: what others do when they are called once
* `Script`: what they do, call after call
-/

namespace WorkflowEngine.Simulation

/-- A change of a record from outside. -/
structure Patch where
  branchName : Option (Option String) := none
  status : Option Status := none
  stepResults : Option (List StepResult) := none
  /-- The record cannot be found any more. -/
  hides : Bool := false
deriving Repr, Inhabited

/-- The changed record. -/
def Patch.apply (p : Patch) (e : Execution) : Execution :=
  { e with
    branchName := p.branchName.getD e.branchName
    status := p.status.getD e.status
    stepResults := p.stepResults.getD e.stepResults }

/-- The world with a record changed. -/
def Patch.applyTo (p : Patch) (w : World) (id : Uuid) : World :=
  let executions := w.store.executions.map fun e => if e.id == id then p.apply e else e
  { w with
    store := { w.store with executions }
    hidden := if p.hides then id :: w.hidden else w.hidden }

/-- What whoever does a simple step answers. -/
inductive LeafAnswer where
  | success (value : Option Json)
  | failure (message : Option String)
  | raised (error : StepError)
deriving Repr, Inhabited

namespace LeafAnswer

/-- The answer as a response. -/
def response : LeafAnswer → StepResponse
  | .success value => ⟨true, value, none⟩
  | .failure message => ⟨false, none, message⟩
  | .raised e => ⟨false, none, some e.reason⟩

/-- The answer as what a step results in. -/
def result (stepId : String) : LeafAnswer → Except StepError Json
  | .success value => .ok (value.getD .null)
  | .failure message => .error (.executionFailed stepId (message.getD ""))
  | .raised e => .error e

end LeafAnswer

/-- An answer of others. -/
inductive Answer where
  | leaf (answer : LeafAnswer)
  | verdict (verdict : Verdict)
deriving Repr, Inhabited

/-- The answer as the reply to what is waited for. -/
def Answer.reply (a : Answer) : (r : Request) → Option r.Reply
  | .execute .. =>
    match a with
    | .leaf answer => some (some answer.response)
    | .verdict _ => none
  | .delegate head .. =>
    match a with
    | .leaf answer => some (answer.result head.id)
    | .verdict _ => none
  | .awaitApproval .. =>
    match a with
    | .leaf _ => none
    | .verdict v => some v
  | _ => none

/-- What others do when they are called once: after a while they change the record, cancel the run,
and answer or never do. -/
structure Reaction where
  delayMs : Nat := 0
  patch : Patch := {}
  cancels : Bool := false
  hangs : Bool := false
  answer : Answer
deriving Repr, Inhabited

/-- What others do for each step, call after call; the last reaction repeats. -/
abbrev Script := List (String × List Reaction)

/-- The reaction to a call of a step after a number of calls before. -/
def Script.reaction? (s : Script) (stepId : String) (before : Nat) : Option Reaction := do
  let reactions ← s.lookup stepId
  reactions[before]? <|> reactions.getLast?

end WorkflowEngine.Simulation
