import WorkflowEngine.CommandLine.Output
import WorkflowEngine.CommandLine.Table
import WorkflowEngine.Json.Printer
import WorkflowEngine.Workflow.Decompile

/-!
# Looking into a catalog

## Main definitions

* `listWorkflows`: the command that lists the workflows of a directory
* `resolveWorkflow`: the command that prints a workflow with all it has from its ancestors
-/

namespace WorkflowEngine.CommandLine

/-- What is listed of a workflow, as a value. -/
def entryJson (w : Workflow) : Json :=
  .ofFields [
    ("id", .str w.id),
    ("name", .str w.name),
    ("version", .ofText? w.version),
    ("extends", .ofText? w.parent),
    ("abstract", .bool w.isAbstract),
    ("steps", .ofNat w.steps.length),
    ("totalSteps", .ofNat w.stepCount)]

/-- The workflows and failures of a folder as a value. -/
def folderJson (f : Folder) : Json :=
  let failure := fun (path, error) => Json.ofFields [("file", .str path), ("error", .str error)]
  .ofFields [
    ("workflows", .arr (f.workflows.map entryJson)),
    ("failures", .arr (f.failures.map failure))]

/-- What is listed of a workflow, as a row of a table. -/
def entryRow (w : Workflow) : List String :=
  let steps := toString w.steps.length ++ " (" ++ toString w.stepCount ++ " total)"
  [w.id, w.name, w.parent.getD "-", if w.isAbstract then "yes" else "no", steps]

/-- The workflows of a folder as a table. -/
def folderTable (f : Folder) : Table :=
  { header := ["Id", "Name", "Extends", "Abstract", "Steps"], rows := f.workflows.map entryRow }

/-- The lines that tell the workflows and failures of a folder. -/
def folderLines (f : Folder) : List String :=
  if f.entries.isEmpty && f.failures.isEmpty then
    ["", "  No workflows found in " ++ f.root ++ ".", ""]
  else
    ["", (folderTable f).text] ++
      f.failures.map (fun (path, error) => "  ! " ++ path ++ ": " ++ error) ++ [""]

/-- Lists the workflows of a directory. -/
def listWorkflows (files : Files) (json : Bool) (dir : String) : Output :=
  .ofExcept <| do
    let f ← openFolder files dir
    return .success (if json then jsonText (folderJson f) else unlines (folderLines f))

/-- Prints a workflow of a directory with all it has from its ancestors. -/
def resolveWorkflow (files : Files) (json : Bool) (dir id : String) : Output :=
  .ofExcept <| do
    let f ← openFolder files dir
    match f.catalog.resolve id with
    | .error e => throw ⟨"Failed to resolve workflow '" ++ id ++ "'", [e.message]⟩
    | .ok w =>
      let report := w.validate
      if !report.isValid then
        throw ⟨"Resolved workflow '" ++ id ++ "' is invalid: " ++ report.message, []⟩
      let d := w.decompile
      return .success (if json then jsonText d.toJson else d.yaml)

end WorkflowEngine.CommandLine
