import WorkflowEngine.Workflow.Compile
import WorkflowEngine.Workflow.Lineage
import WorkflowEngine.Workflow.Merge

/-!
# Resolving workflows

A workflow is resolved by merging it onto what it extends, which is resolved before. The result
extends nothing.

## Main definitions

* `Catalog.resolve`: the resolved workflow of an id
* `WorkflowError`, `WorkflowError.message`: why there is no workflow to run
* `Document.compileValid`: a workflow without errors from what is written
-/

namespace WorkflowEngine

namespace Catalog

variable (catalog : Catalog)

/-- A workflow merged onto what it extends, in at most `fuel` merges. -/
def compose (fuel : Nat) (w : Workflow) : Except LineageError Workflow :=
  match w.parent with
  | none => .ok w
  | some parent =>
    match Dict.find? catalog parent, fuel with
    | some p, fuel + 1 => do return (← compose fuel p).merge w
    | _, _ => .error (.unknownParent w.id parent)

/-- The resolved workflow of an id. -/
def resolve (id : String) : Except LineageError Workflow := do
  catalog.checkLineage id
  match Dict.find? catalog id with
  | some w => catalog.compose catalog.length w
  | none => .error (.notFound id)

end Catalog

/-- Why there is no workflow to run. -/
inductive WorkflowError where
  /-- The text is no document. -/
  | unreadable
  /-- A file cannot be read or written. -/
  | file (message : String)
  | compile (error : CompileError)
  | invalid (report : Report)
  | lineage (error : LineageError)
  | notRunnable (id : String)
deriving Repr, DecidableEq

/-- The text that says why there is no workflow to run. -/
def WorkflowError.message : WorkflowError → String
  | .unreadable => "parse error: the text is no workflow document"
  | .file message => "I/O error: " ++ message
  | .compile e => e.message
  | .invalid report => "validation failed: " ++ report.message
  | .lineage e => e.message
  | .notRunnable id => "workflow '" ++ id ++ "' is abstract and cannot be executed"

/-- A workflow without errors, or why there is none. -/
def Workflow.checked (w : Workflow) : Except WorkflowError Workflow :=
  let report := w.validate
  if report.isValid then .ok w else .error (.invalid report)

/-- A workflow without errors from what is written. -/
def Document.compileValid (d : Document) : Except WorkflowError Workflow :=
  match d.compile with
  | .ok w => w.checked
  | .error e => .error (.compile e)

end WorkflowEngine
