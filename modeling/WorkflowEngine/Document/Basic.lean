import WorkflowEngine.Json.Basic
import WorkflowEngine.Timestamp

/-!
# Workflow documents

Workflows as their authors write them. Nearly every field may be absent, so that a document with
defects can still be read, and the defects be reported one by one.

## Main definitions

* `ParameterNode`, `StepFields`, `StepNode`: parameters and steps as written
* `Document`: a workflow as written
-/

namespace WorkflowEngine

/-- A parameter as written. -/
structure ParameterNode where
  type : Option String := none
  description : Option String := none
  default : Option Json := none
  required : Option Bool := none
deriving Repr, Inhabited

/-- The fields of a step that hold no steps. Which of them matter depends on the type. -/
structure StepFields where
  id : Option String := none
  type : Option String := none
  name : Option String := none
  timeout : Option Nat := none
  retryCount : Option Nat := none
  continueOnError : Option Bool := none
  action : Option String := none
  config : Dict Json := []
  model : Option String := none
  prompt : Option String := none
  condition : Option String := none
  loopType : Option String := none
  maxIterations : Option Json := none
  breakOn : Option String := none
  onError : Option String := none
  maxConcurrency : Option Int := none
  failFast : Option Bool := none
deriving Repr, Inhabited

/-- A step as written: its fields and the steps it holds. -/
inductive StepNode where
  | mk (fields : StepFields) (ifSteps elseSteps : Option (List StepNode))
    (cases : Option (List (String × List StepNode))) (defaultSteps steps : Option (List StepNode))
deriving Repr, Inhabited

/-- The fields that hold no steps. -/
def StepNode.fields : StepNode → StepFields
  | .mk fields _ _ _ _ _ => fields

/-- A workflow as written. -/
structure Document where
  id : Option String := none
  name : Option String := none
  description : Option String := none
  version : Option String := none
  parent : Option String := none
  isAbstract : Option Bool := none
  reusable : Option Bool := none
  parameters : Dict ParameterNode := []
  vars : Dict Json := []
  steps : List StepNode := []
  metadata : Dict Json := []
  createdAt : Option Timestamp := none
  updatedAt : Option Timestamp := none
deriving Repr, Inhabited

end WorkflowEngine
