import WorkflowEngine.Workflow.Basic

/-!
# Merging a workflow onto another one

A step of the child replaces the parent's step with its id. Other steps of the child go next to the
nearest shared step in the child's own order: before the next one, else after the one before, else
to the end.

## Main definitions

* `Place`: where a new step goes
* `mergeSteps`: the merge of two lists of steps
* `Workflow.merge`: the merge of a child onto its parent
-/

namespace WorkflowEngine

/-- Where a new step goes. -/
inductive Place where
  | before (id : String)
  | after (id : String)
  | atEnd
deriving Repr, DecidableEq

namespace Merge

/-- The steps of a child that its parent has not, in order, with their places. `previous` is the
nearest shared step before. -/
def placed (isShared : Step → Bool) (previous : Option String) : List Step → List (Place × Step)
  | [] => []
  | s :: rest =>
    if isShared s then placed isShared (some s.id) rest
    else
      let place := match rest.find? isShared, previous with
        | some next, _ => .before next.id
        | none, some id => .after id
        | none, none => .atEnd
      (place, s) :: placed isShared previous rest

/-- The steps at a place. -/
def standing (place : Place) (placed : List (Place × Step)) : List Step :=
  (placed.filter fun p => p.1 = place).map Prod.snd

/-- The step that a child puts in the place of one of its parent's. -/
def replacement (child : List Step) (s : Step) : Step :=
  (child.reverse.find? fun c => c.id == s.id).getD s

end Merge

open Merge

/-- The merge of the steps of a child onto those of its parent. -/
def mergeSteps (parent child : List Step) : List Step :=
  let new := placed (fun s => parent.any fun p => p.id == s.id) none child
  (parent.flatMap fun s =>
    standing (.before s.id) new ++ replacement child s :: standing (.after s.id) new) ++
  standing .atEnd new

/-- The merge of a child onto its parent. -/
def Workflow.merge (parent child : Workflow) : Workflow :=
  { id := child.id
    name := child.name
    description := child.description <|> parent.description
    version := child.version <|> parent.version
    parent := none
    isAbstract := child.isAbstract
    reusable := child.reusable <|> parent.reusable
    parameters := Dict.extend parent.parameters child.parameters
    vars := Dict.extend parent.vars child.vars
    steps := mergeSteps parent.steps child.steps
    metadata := Dict.extend parent.metadata child.metadata
    createdAt := child.createdAt
    updatedAt := child.updatedAt }

end WorkflowEngine
