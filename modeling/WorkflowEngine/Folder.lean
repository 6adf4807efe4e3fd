import WorkflowEngine.Files
import WorkflowEngine.Record.Format
import WorkflowEngine.Store
import WorkflowEngine.Workflow.Resolution
import WorkflowEngine.Document.Writing
import WorkflowEngine.Yaml.Writer

/-!
# Workflows in files

The workflows of a directory are those of its files, in the order of their paths. A file that has no
workflow, or one whose id is taken by a file before it, is a failure.

## Main definitions

* `Document.load`, `Workflow.load`, `WorkItem.load`, `Document.save`: one file
* `workflowFiles`, `workflowsBelow`: the files of a directory that may hold workflows
* `Folder`: the workflows of a directory
* `Folder.ofLoads`, `Folder.load`: the folder of what was read, and of a directory
* `Folder.catalog`, `Folder.store`: the workflows of a folder by id
-/

namespace WorkflowEngine

open Data

/-! ### One file -/

/-- A document from a file; its extension tells the format. -/
def Document.load (files : Files) (path : String) : Except WorkflowError Document :=
  match files.read path with
  | .error e => .error (.file e.message)
  | .ok s =>
    let read := if FilePath.extensionOf? path == some "json" then Document.ofJson? s
      else Document.ofYaml? s
    match read with
    | some d => .ok d
    | none => .error .unreadable

/-- A workflow from a file, which may have errors. -/
def Workflow.loadUnchecked (files : Files) (path : String) : Except WorkflowError Workflow := do
  match (← Document.load files path).compile with
  | .ok w => return w
  | .error e => throw (.compile e)

/-- A workflow without errors from a file. -/
def Workflow.load (files : Files) (path : String) : Except WorkflowError Workflow := do
  (← Document.load files path).compileValid

/-- The text of a document in a file. -/
def Document.yaml (d : Document) : String := Yaml.write d.toDatum

/-- The tree with a document written into a file. -/
def Document.save (files : Files) (path : String) (d : Document) : Except WorkflowError Files :=
  match files.write path d.yaml with
  | .ok files => .ok files
  | .error e => .error (.file e.message)

/-- A work item from Json text. -/
def WorkItem.ofJson? (s : String) : Option WorkItem := do
  WorkItem.ofDatum? ((← Json.readDatum s).cut Document.jsonDepth)

/-- A work item from Yaml text. -/
def WorkItem.ofYaml? (s : String) : Option WorkItem := do WorkItem.ofDatum? (← Yaml.read s)

/-- A work item from a file, or the text that says why there is none. -/
def WorkItem.load (files : Files) (path : String) : Except String WorkItem :=
  let invalid := fun reason : String => "invalid work item file " ++ path ++ ": " ++ reason
  match files.read path with
  | .error e => .error (invalid e.message)
  | .ok s =>
    let read := if FilePath.extensionOf? path == some "json" then WorkItem.ofJson? s
      else WorkItem.ofYaml? s
    match read with
    | some item => .ok item
    | none => .error (invalid "the text is no work item")

/-! ### Directories -/

/-- The extensions of files that may hold workflows. -/
def workflowExtensions : List String := ["yaml", "yml", "json"]

/-- The files of a directory that may hold workflows, in the order of their paths. -/
def workflowFiles (files : Files) (dir : String) : Except WorkflowError (List String) :=
  if !files.isThere dir then .ok []
  else if !files.isDirectory dir then .error (.file FileError.notADirectory.message)
  else .ok <| (files.below dir).filter fun path =>
    (FilePath.extensionOf? path).any workflowExtensions.contains

/-- The workflows without errors of a directory, with their files. -/
def workflowsBelow (files : Files) (dir : String) :
    Except WorkflowError (List (String × Workflow)) := do
  return (← workflowFiles files dir).filterMap fun path =>
    match Workflow.load files path with
    | .ok w => some (path, w)
    | .error _ => none

/-! ### Folders -/

/-- The workflows of a directory. -/
structure Folder where
  root : String
  /-- The workflows with their files, in the order of the files. -/
  entries : List (String × Workflow)
  /-- The files without a workflow of their own, each with the reason. -/
  failures : List (String × String)

/-- Why there is no folder. -/
inductive FolderError where
  | notADirectory (path : String)
  | workflow (error : WorkflowError)

/-- The text that says why there is no folder. -/
def FolderError.message : FolderError → String
  | .notADirectory path => "catalog directory not found: " ++ path
  | .workflow e => e.message

namespace Folder

/-- The file of a workflow. -/
def pathOf? (f : Folder) (id : String) : Option String :=
  (f.entries.find? fun e => e.2.id == id).map Prod.fst

/-- The workflow with an id. -/
def get? (f : Folder) (id : String) : Option Workflow :=
  (f.entries.find? fun e => e.2.id == id).map Prod.snd

/-- Why a workflow of a file does not count: its id is taken. -/
def duplicateMessage (id first : String) : String :=
  "duplicate workflow id '" ++ id ++ "' (already defined in " ++ first ++ ")"

/-- The folder with one more file. -/
def add (f : Folder) (path : String) (loaded : Except WorkflowError Workflow) : Folder :=
  match loaded with
  | .error e => { f with failures := f.failures ++ [(path, e.message)] }
  | .ok w =>
    match f.pathOf? w.id with
    | some first => { f with failures := f.failures ++ [(path, duplicateMessage w.id first)] }
    | none => { f with entries := f.entries ++ [(path, w)] }

/-- The folder of files in order, each with what was read from it. -/
def ofLoads (root : String) (loads : List (String × Except WorkflowError Workflow)) : Folder :=
  loads.foldl (fun f (path, loaded) => f.add path loaded) ⟨root, [], []⟩

/-- The folder of a directory. -/
def load (files : Files) (root : String) : Except FolderError Folder :=
  if files.isDirectory root then
    match workflowFiles files root with
    | .ok paths =>
      .ok (ofLoads root (paths.map fun path => (path, Workflow.loadUnchecked files path)))
    | .error e => .error (.workflow e)
  else .error (.notADirectory root)

variable (f : Folder)

/-- The workflows in the order of their files. -/
def workflows : List Workflow := f.entries.map Prod.snd

/-- The workflows by id. -/
def catalog : Catalog := Dict.ofList (f.workflows.map fun w => (w.id, w))

/-- A store that holds the workflows. -/
def store : Store := f.workflows.foldl Store.saveWorkflow {}

end Folder

end WorkflowEngine
