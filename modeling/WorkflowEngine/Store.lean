import WorkflowEngine.Record.Basic
import WorkflowEngine.Workflow.Basic

/-!
# The store

Workflows, records of runs and work items, each under its id.

## Main definitions

* `Store`: what is kept
* `StoreError`, `StoreError.message`: why an operation fails
* `Store.createExecution`, `Store.updateExecution`: new records and new versions of records
* `Store.listExecutions`: the records of a workflow, the latest first
-/

namespace WorkflowEngine

/-- What is kept. -/
structure Store where
  workflows : Dict Workflow := []
  executions : List Execution := []
  workItems : Dict WorkItem := []
deriving Inhabited

/-- Why an operation fails. -/
inductive StoreError where
  | notFound
  | conflict (message : String)
  | storage (message : String)
deriving Repr, DecidableEq

/-- The text that says why an operation fails. -/
def StoreError.message : StoreError → String
  | .notFound => "not found"
  | .conflict message => "conflict: " ++ message
  | .storage message => "storage error: " ++ message

namespace Store

/-- All workflows, by id. -/
def getWorkflows (s : Store) : List Workflow := s.workflows.map Prod.snd

/-- The workflow with an id. -/
def getWorkflow? (s : Store) (id : String) : Option Workflow := Dict.find? s.workflows id

/-- Keeps a workflow, in place of the one with its id. -/
def saveWorkflow (s : Store) (w : Workflow) : Store :=
  { s with workflows := Dict.insert s.workflows w.id w }

/-- The record with an id. -/
def getExecution? (s : Store) (id : Uuid) : Option Execution :=
  s.executions.find? fun e => e.id == id

/-- Keeps a record with a new id. -/
def createExecution (s : Store) (e : Execution) : Except StoreError Store :=
  if (s.getExecution? e.id).isSome then
    .error (.conflict ("execution " ++ e.id.text ++ " already exists"))
  else .ok { s with executions := s.executions ++ [e] }

/-- Keeps a record in place of the one with its id. -/
def updateExecution (s : Store) (e : Execution) : Except StoreError Store :=
  if (s.getExecution? e.id).isSome then
    .ok { s with executions := s.executions.map fun old => if old.id == e.id then e else old }
  else .error .notFound

/-- A record comes before another one in listings: it began later, or its id is greater. -/
def comesBefore (a b : Execution) : Bool :=
  b.startedAt.before a.startedAt ||
    (a.startedAt == b.startedAt && b.id.value < a.id.value)

/-- The records of a workflow, or of all, the latest first. -/
def listExecutions (s : Store) (workflow : Option String) : List Execution :=
  (s.executions.filter fun e => workflow.all fun id => e.workflowId == id).mergeSort fun a b =>
    comesBefore a b || a.id == b.id

/-- The work item with an id. -/
def getWorkItem? (s : Store) (id : String) : Option WorkItem := Dict.find? s.workItems id

/-- Keeps a work item, in place of the one with its id. -/
def insertWorkItem (s : Store) (item : WorkItem) : Store :=
  { s with workItems := Dict.insert s.workItems item.id item }

end Store

end WorkflowEngine
