import WorkflowEngine.CommandLine.Output
import WorkflowEngine.Json.Printer

/-!
# Checks of files

What is wrong with a workflow in a file: that it cannot be read, that it does not compile, or all
that its validation finds. With a catalog, the ancestors of the workflow are checked too.

## Main definitions

* `Check`: what was found in a file
* `Check.ofFile`: the check of a file
* `checkFiles`: the command that checks files
-/

namespace WorkflowEngine.CommandLine

/-- What was found in a file. -/
structure Check where
  file : String
  workflowId : Option String := none
  errors : List Issue := []
  warnings : List Issue := []
deriving Repr, DecidableEq

namespace Check

/-- What is wrong with the ancestors of a workflow, if it has a parent. -/
def lineageIssues (catalog : Catalog) (w : Workflow) : List Issue :=
  if w.parent.isSome then
    match Catalog.checkLineage (Dict.insert catalog w.id w) w.id with
    | .ok () => []
    | .error e => [⟨"extends", e.message⟩]
  else []

/-- The check of a document of a file. -/
def ofDocument (file : String) (catalog : Option Catalog) (d : Document) : Check :=
  match d.compile with
  | .error e => { file, workflowId := d.id, errors := [⟨"steps", e.message⟩] }
  | .ok w =>
    let report := w.validate
    let lineage := (catalog.map fun c => lineageIssues c w).getD []
    { file, workflowId := d.id, errors := report.errors ++ lineage, warnings := report.warnings }

/-- The check of a file. -/
def ofFile (files : Files) (catalog : Option Catalog) (file : String) : Check :=
  match Document.load files file with
  | .error e => { file, errors := [⟨"", e.message⟩] }
  | .ok d => ofDocument file catalog d

variable (c : Check)

/-- Nothing is wrong. -/
def isValid : Bool := c.errors.isEmpty

/-- An issue as a value. -/
def issueJson (i : Issue) : Json := .ofFields [("path", .str i.path), ("message", .str i.message)]

/-- A check as a value. -/
def toJson : Json :=
  .ofFields [
    ("file", .str c.file),
    ("workflowId", .ofText? c.workflowId),
    ("valid", .bool c.isValid),
    ("errors", .arr (c.errors.map issueJson)),
    ("warnings", .arr (c.warnings.map issueJson))]

/-- The line that tells an error. -/
def errorLine (i : Issue) : String :=
  if i.path.isEmpty then "      " ++ i.message else "      " ++ i.path ++ ": " ++ i.message

/-- The line that tells a warning. -/
def warningLine (i : Issue) : String := "      warning " ++ i.path ++ ": " ++ i.message

/-- The line that tells the file and whether anything is wrong. -/
def headLine : String :=
  let mark := if c.isValid then "✓" else "✗"
  let id := match c.workflowId with
    | some id => " (" ++ id ++ ")"
    | none => ""
  "  " ++ mark ++ " " ++ c.file ++ id

/-- The lines that tell a check. -/
def lines : List String :=
  c.headLine :: c.errors.map errorLine ++ c.warnings.map warningLine

end Check

/-- Checks files, with the workflows of a directory as a catalog if one is given. -/
def checkFiles (files : Files) (json : Bool) (paths : List String) (dir : Option String) : Output :=
  .ofExcept <| do
    let catalog ← match dir with
      | some dir => do pure (some (← openFolder files dir).catalog)
      | none => pure none
    let checks := paths.map (Check.ofFile files catalog)
    let printed :=
      if json then jsonText (.arr (checks.map Check.toJson))
      else unlines ([""] ++ checks.flatMap Check.lines ++ [""])
    let failed := checks.countP fun c => !c.isValid
    if failed = 0 then return .success printed
    let message := toString failed ++ " of " ++ toString checks.length ++
      " workflow file(s) failed validation"
    return .failure ⟨message, []⟩ printed

end WorkflowEngine.CommandLine
