import WorkflowEngine.Workflow.Validation

/-!
# The workflows that a workflow extends

A workflow may extend another one of a catalog, which may extend a third one, and so on. The walk
has to end at a workflow that extends nothing.

## Main definitions

* `Catalog`: workflows under ids
* `LineageError`, `LineageError.message`: why the walk does not end well
* `Catalog.checkLineage`: whether the walk from an id ends well
* `Catalog.lineage`: the ids of the walk
* `Catalog.validate`: the report on a workflow together with what it extends
-/

namespace WorkflowEngine

/-- Workflows under ids. -/
abbrev Catalog := Dict Workflow

/-- Why the walk from a workflow over what it extends does not end well. -/
inductive LineageError where
  /-- The walk comes back to a workflow; the ids are those of the walk. -/
  | circular (ids : List String)
  | unknownParent (child parent : String)
  | notFound (id : String)
deriving Repr, DecidableEq

/-- The text that says why the walk does not end well. -/
def LineageError.message : LineageError → String
  | .circular ids => "circular dependency: " ++ " -> ".intercalate ids
  | .unknownParent child parent =>
    "workflow '" ++ child ++ "' extends unknown parent '" ++ parent ++ "'"
  | .notFound id => "workflow not found: " ++ id

namespace Catalog

variable (catalog : Catalog)

/-- The walk from an id after the ids `seen`, the latest first, in at most `fuel` steps. -/
def checkFrom (fuel : Nat) (seen : List String) (id : String) : Except LineageError Unit :=
  match fuel with
  | 0 => .error (.notFound id)
  | fuel + 1 =>
    match Dict.find? catalog id with
    | none =>
      match seen with
      | [] => .error (.notFound id)
      | child :: _ => .error (.unknownParent child id)
    | some w =>
      match w.parent with
      | none => .ok ()
      | some parent =>
        let seen := id :: seen
        if seen.contains parent then .error (.circular (parent :: seen).reverse)
        else checkFrom fuel seen parent

/-- Whether the walk from an id ends well. No id is met twice, so it takes no more steps than there
are workflows. -/
def checkLineage (id : String) : Except LineageError Unit :=
  catalog.checkFrom (catalog.length + 1) [] id

/-- The ids that the workflow under an id extends, in at most `fuel` steps. -/
def ancestors (fuel : Nat) (id : String) : List String :=
  match fuel with
  | 0 => []
  | fuel + 1 =>
    match (Dict.find? catalog id).bind Workflow.parent with
    | some parent => parent :: ancestors fuel parent
    | none => []

/-- The ids of the walk from an id, if it ends well. -/
def lineage (id : String) : Except LineageError (List String) := do
  catalog.checkLineage id
  return id :: catalog.ancestors catalog.length id

/-- The report on a workflow together with what it extends. Where the catalog has a workflow with
its id, the walk is that of the catalog's. -/
def validate (w : Workflow) : Report :=
  let report := w.validate
  if w.parent.isNone then report
  else
    let known : Catalog :=
      if Dict.hasKey catalog w.id then catalog else Dict.insert catalog w.id w
    match known.checkLineage w.id with
    | .ok () => report
    | .error e => { report with errors := report.errors ++ [⟨"extends", e.message⟩] }

end Catalog

end WorkflowEngine
