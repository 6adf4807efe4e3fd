import WorkflowEngine.Record.Format

/-!
# Calls that a run makes

Simple steps are done by others: what they are asked and what they answer.

## Main definitions

* `StepRequest`, `StepResponse`: a simple step that is to be done, and how that went
* `Caller`: the run that a call comes from
* `Decision`, `Verdict`: the answer to a request for approval, and how the wait for it ends
-/

namespace WorkflowEngine

open Data

/-- A simple step that is to be done. -/
structure StepRequest where
  stepId : String
  stepType : String
  action : String
  params : Dict Json
deriving Repr, Inhabited

/-- A request as a value. -/
def StepRequest.toJson (r : StepRequest) : Json :=
  .ofFields [("stepId", .str r.stepId), ("stepType", .str r.stepType), ("action", .str r.action),
    ("params", .obj r.params)]

/-- A request from data. -/
def StepRequest.ofDatum? (d : Datum) : Option StepRequest := do
  let f ← d.fields? ["stepId", "stepType", "action", "params"]
  return {
    stepId := ← f.required "stepId" Datum.text?
    stepType := ← f.required "stepType" Datum.text?
    action := ← f.required "action" Datum.text?
    params := ← f.required "params" (readDict Datum.json?) }

/-- How a simple step went. -/
structure StepResponse where
  success : Bool
  value : Option Json
  error : Option String
deriving Repr, Inhabited

/-- A response as a value. -/
def StepResponse.toJson (r : StepResponse) : Json :=
  .ofFields? [("success", some (.bool r.success)), ("value", r.value), ("error", r.error.map .str)]

/-- A response from data. -/
def StepResponse.ofDatum? (d : Datum) : Option StepResponse := do
  let f ← d.fields? ["success", "value", "error"]
  return {
    success := ← f.required "success" Datum.bool?
    value := ← f.optional "value" Datum.json?
    error := ← f.optional "error" Datum.text? }

/-- The run that a call comes from, and how deep in the tree the step lies. -/
structure Caller where
  executionId : Uuid
  workflowId : String
  workItemId : String
  branchName : Option String
  workItem : Json
  depth : Nat
deriving Repr, Inhabited

/-- The answer to a request for approval. -/
structure Decision where
  approved : Bool
  reason : Option String
deriving Repr, DecidableEq, Inhabited

/-- A decision as a value. -/
def Decision.toJson (d : Decision) : Json :=
  .ofFields? [("approved", some (.bool d.approved)), ("reason", d.reason.map .str)]

/-- A decision from data. -/
def Decision.ofDatum? (d : Datum) : Option Decision := do
  let f ← d.fields? ["approved", "reason"]
  return {
    approved := ← f.required "approved" Datum.bool?
    reason := ← f.optional "reason" Datum.text? }

/-- How the wait for an approval ends. -/
inductive Verdict where
  | decided (decision : Decision)
  | failed (message : String)
  | timedOut
  | cancelled
deriving Repr, DecidableEq, Inhabited

end WorkflowEngine
