import WorkflowEngine.Workflow.Basic
import WorkflowEngine.Workflow.Version

/-!
# Validation of workflows

Every defect of a workflow is reported, with the path of the place it stands at. A path names the
lists and positions from the root, as in `steps[2].if[0].condition`. Ids are distinct within each
list of steps.

## Main definitions

* `Issue`, `Report`: a defect, and all of them
* `Site`: a place of the tree of steps where something may be wrong
* `Site.ofSteps`: the places of a list of steps, in the order of a walk from the root
* `Workflow.validate`: the report on a workflow
-/

namespace WorkflowEngine

/-- A defect and the path of its place. -/
structure Issue where
  path : String
  message : String
deriving Repr, DecidableEq

/-- What was found in a workflow. Warnings do not make it invalid. -/
structure Report where
  errors : List Issue
  warnings : List Issue
deriving Repr, DecidableEq

namespace Report

/-- The workflow has no errors. -/
def isValid (r : Report) : Bool := r.errors.isEmpty

/-- The text that sums up a report. -/
def message (r : Report) : String :=
  if r.isValid then "workflow is valid"
  else
    toString r.errors.length ++ " error(s): " ++
      "; ".intercalate (r.errors.map fun i => i.path ++ ": " ++ i.message)

end Report

/-- A place of the tree of steps where something may be wrong. -/
inductive Site where
  /-- A step, and whether its id stands in its list before. -/
  | step (path : String) (isRepeated : Bool) (step : Step)
  /-- A nested list without steps. -/
  | emptyList (path : String)
  /-- A conditional without cases where there should be some. -/
  | noCases (path : String)

namespace Site

/-- The path of a place. -/
def path : Site → String
  | .step path _ _ => path
  | .emptyList path => path
  | .noCases path => path

/-- The path of an element of a list. -/
def elementPath (path : String) (i : Nat) : String := path ++ "[" ++ toString i ++ "]"

/-- A nested list should have steps. -/
def emptyAt (path : String) (steps : List Step) : List Site :=
  if steps.isEmpty then [.emptyList path] else []

/-- There should be cases. -/
def noCasesAt (path : String) (cases : List (String × List Step)) : List Site :=
  if cases.isEmpty then [.noCases path] else []

mutual
/-- The places of a list of steps from position `i` on, after steps with the ids `seen`. -/
def ofStepsFrom (path : String) (i : Nat) (seen : List String) : List Step → List Site
  | [] => []
  | s :: ss =>
    let here := elementPath path i
    .step here (seen.contains s.id) s :: ofChildren here s ++
      ofStepsFrom path (i + 1) (s.id :: seen) ss

/-- The places of the lists that a step holds. -/
def ofChildren (path : String) : Step → List Site
  | .simple .. => []
  | .conditional _ _ ifSteps elseSteps cases defaultSteps =>
    ofBranch (path ++ ".if") ifSteps ++ ofBranch (path ++ ".else") elseSteps ++
      ofCases (path ++ ".switch") cases ++ ofBranch (path ++ ".default") defaultSteps
  | .loop _ _ body => emptyAt (path ++ ".steps") body ++ ofStepsFrom (path ++ ".steps") 0 [] body
  | .parallel _ _ body =>
    emptyAt (path ++ ".steps") body ++ ofStepsFrom (path ++ ".steps") 0 [] body

/-- The places of a branch that may be absent. -/
def ofBranch (path : String) : Option (List Step) → List Site
  | none => []
  | some steps => emptyAt path steps ++ ofStepsFrom path 0 [] steps

/-- The places of cases that may be absent. -/
def ofCases (path : String) : Option (List (String × List Step)) → List Site
  | none => []
  | some cases => noCasesAt path cases ++ ofCaseList path cases

/-- The places of cases. -/
def ofCaseList (path : String) : List (String × List Step) → List Site
  | [] => []
  | (key, steps) :: cases =>
    let here := path ++ "." ++ key
    emptyAt here steps ++ ofStepsFrom here 0 [] steps ++ ofCaseList path cases
end

/-- The places of a list of steps. -/
def ofSteps (path : String) (steps : List Step) : List Site := ofStepsFrom path 0 [] steps

/-- The issue, if the condition holds. -/
def issueIf (condition : Bool) (path message : String) : List Issue :=
  if condition then [⟨path, message⟩] else []

/-- What may be wrong with the id of a step. -/
def idIssues (path : String) (isRepeated : Bool) (id : String) : List Issue :=
  if Text.isBlankText id then [⟨path ++ ".id", "step id is required"⟩]
  else issueIf isRepeated (path ++ ".id") ("Duplicate step ID: '" ++ id ++ "'")

/-- What may be wrong with a step itself, its id apart. -/
def stepIssues (path : String) : Step → List Issue
  | .simple _ leaf =>
    issueIf (Text.isBlankText leaf.action) (path ++ ".action")
      "simple steps require a non-empty action"
  | .conditional _ condition ifSteps elseSteps cases defaultSteps =>
    issueIf (Text.isBlankText condition) (path ++ ".condition")
        "conditional steps require a condition" ++
      issueIf (ifSteps.isNone && cases.isNone) path
        "conditional steps require an 'if' branch or a 'switch' map" ++
      issueIf (ifSteps.isSome && cases.isSome) path
        "conditional steps cannot combine 'if' and 'switch'" ++
      issueIf (elseSteps.isSome && ifSteps.isNone) (path ++ ".else")
        "'else' requires an 'if' branch" ++
      issueIf (defaultSteps.isSome && cases.isNone) (path ++ ".default")
        "'default' requires a 'switch' map"
  | .loop _ rule _ =>
    issueIf rule.type.isNone (path ++ ".loopType") "loopType must be one of while, for, retry" ++
      issueIf (rule.type == some .whileTrue && rule.condition.all Text.isBlankText)
        (path ++ ".condition") "while loops require a condition"
  | .parallel _ rule _ =>
    issueIf (rule.maxConcurrency.any (· ≤ 0)) (path ++ ".maxConcurrency")
      "maxConcurrency must be a positive number"

/-- The errors at a place. -/
def errors : Site → List Issue
  | .step path isRepeated s => idIssues path isRepeated s.id ++ stepIssues path s
  | .emptyList path => [⟨path, "must contain at least one step"⟩]
  | .noCases path => [⟨path, "switch must declare at least one case"⟩]

/-- The warnings at a place. -/
def warnings : Site → List Issue
  | .step path _ (.loop _ rule _) =>
    issueIf (rule.type == some .retry && rule.bound.isNone) (path ++ ".maxIterations")
      "retry loops should declare maxIterations (defaults to 10)"
  | _ => []

end Site

namespace Workflow

/-- What is wrong with the fields of a workflow. -/
def fieldIssues (w : Workflow) : List Issue :=
  Site.issueIf (Text.isBlankText w.id) "id" "workflow id is required" ++
    Site.issueIf (Text.isBlankText w.name) "name" "workflow name is required" ++
    (w.version.toList.flatMap fun v =>
      Site.issueIf (!Version.isVersion v) "version" ("'" ++ v ++ "' is not a semantic version")) ++
    Site.issueIf (!w.isAbstract && w.steps.isEmpty) "steps"
      "a non-abstract workflow requires at least one step" ++
    w.parameters.flatMap fun (name, p) =>
      Site.issueIf p.type.isNone ("parameters." ++ name ++ ".type")
        "parameter type must be one of string, number, boolean, object, array"

/-- The report on a workflow. -/
def validate (w : Workflow) : Report :=
  let sites := Site.ofSteps "steps" w.steps
  { errors := w.fieldIssues ++ sites.flatMap Site.errors
    warnings := sites.flatMap Site.warnings }

end Workflow

end WorkflowEngine
