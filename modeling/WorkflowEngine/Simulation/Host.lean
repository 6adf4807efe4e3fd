import WorkflowEngine.Simulation.Script

/-!
# Hosts

A host does the simple steps and gives the approvals: by a script, or by rules that need none. It
counts the calls of each step, and how many are in progress at once.

## Main definitions

* `Executor`, `Approver`: who does simple steps, and who gives approvals
* `Host`: both, with what they remember
* `Host.begin?`: the reaction to a request
-/

namespace WorkflowEngine.Simulation

/-- Who does simple steps. -/
inductive Executor where
  | scripted (script : Script)
  /-- Nothing is done; the answer tells what was asked. -/
  | dryRun
deriving Inhabited

/-- Who gives approvals. -/
inductive Approver where
  | scripted (script : Script)
  /-- Always the same. -/
  | policy (verdict : Verdict)
deriving Inhabited

/-- Who does simple steps and gives approvals, with what they remember. -/
structure Host where
  executor : Executor
  approver : Approver
  /-- How often each step was called. -/
  calls : List (String × Nat) := []
  /-- How often an approval was asked for by each step. -/
  approvals : List (String × Nat) := []
  /-- The calls that are in progress. -/
  inFlight : Nat := 0
  /-- The most calls that ever were in progress at once. -/
  maxInFlight : Nat := 0
deriving Inhabited

/-- Counts one more for a step. -/
def countOne (counts : List (String × Nat)) (stepId : String) : List (String × Nat) :=
  (stepId, (counts.lookup stepId).getD 0 + 1) :: counts.filter fun c => c.1 != stepId

/-- The answer that tells what was asked. -/
def echo (stepId action : String) (params : Dict Json) : Json :=
  .ofFields [("stepId", .str stepId), ("action", .str action), ("params", .obj params)]

/-- The answer that tells what would be done. -/
def dryAnswer (r : StepRequest) (caller : Caller) : Json :=
  .ofFields [("dryRun", .bool true), ("stepId", .str r.stepId), ("action", .str r.action),
    ("params", .obj r.params), ("branchName", .ofText? caller.branchName)]

/-- A reaction that answers at once. -/
def Reaction.immediate (a : Answer) : Reaction := { answer := a }

/-- The reaction that is a success at once. -/
def Reaction.success (v : Json) : Reaction := .immediate (.leaf (.success (some v)))

/-- The start of a reaction. -/
structure Beginning where
  host : Host
  reaction : Reaction
  /-- The run that the reaction belongs to. -/
  runId : Uuid
  /-- The seconds that it may take. -/
  timeoutSecs : Option Nat
  /-- It counts as a call in progress. -/
  counts : Bool
  /-- What is seen of it. -/
  notice : Notice

namespace Host

variable (h : Host)

/-- One more call is in progress. -/
def enterCall (stepId : String) : Host :=
  { h with
    calls := countOne h.calls stepId
    inFlight := h.inFlight + 1
    maxInFlight := max h.maxInFlight (h.inFlight + 1) }

/-- A call is not in progress any more. -/
def leaveCall : Host := { h with inFlight := h.inFlight - 1 }

/-- The reaction of a script to a call, or an echo. -/
def scripted (script : Script) (stepId action : String) (params : Dict Json) : Reaction :=
  (script.reaction? stepId ((h.calls.lookup stepId).getD 0)).getD
    (.success (echo stepId action params))

/-- A simple step is to be done. -/
def beginCall (r : StepRequest) (caller : Caller) (timeoutSecs : Option Nat) : Beginning :=
  let notice := .called r caller
  let runId := caller.executionId
  match h.executor with
  | .dryRun =>
    { host := h, reaction := .success (dryAnswer r caller), runId, timeoutSecs, counts := false,
      notice }
  | .scripted script =>
    { host := h.enterCall r.stepId, reaction := h.scripted script r.stepId r.action r.params, runId,
      timeoutSecs, counts := true, notice }

/-- A simple step is left as a whole. -/
def beginDelegated (head : Head) (leaf : Leaf) (depth : Nat) (c : Context) : Beginning :=
  let script := match h.executor with
    | .scripted script => script
    | .dryRun => []
  { host := h.enterCall head.id
    reaction := h.scripted script head.id leaf.action leaf.config
    runId := .nil
    timeoutSecs := none
    counts := true
    notice := .delegated head.id depth c }

/-- An approval is asked for. -/
def beginApproval (runId : Uuid) (stepId : String) (timeoutSecs : Nat) (prompt : Option String) :
    Beginning :=
  let reaction := match h.approver with
    | .policy v => .immediate (.verdict v)
    | .scripted script =>
      (script.reaction? stepId ((h.approvals.lookup stepId).getD 0)).getD
        (.immediate (.verdict (.decided ⟨true, none⟩)))
  { host := { h with approvals := countOne h.approvals stepId }
    reaction, runId
    timeoutSecs := some timeoutSecs
    counts := false
    notice := .asked stepId timeoutSecs prompt }

/-- The start of the reaction to a request. -/
def begin? : Request → Option Beginning
  | .execute r caller timeoutSecs => some (h.beginCall r caller timeoutSecs)
  | .delegate head leaf depth c => some (h.beginDelegated head leaf depth c)
  | .awaitApproval runId stepId timeoutSecs prompt =>
    some (h.beginApproval runId stepId timeoutSecs prompt)
  | _ => none

end Host

end WorkflowEngine.Simulation
