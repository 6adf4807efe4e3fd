import WorkflowEngine.Document.Basic
import WorkflowEngine.Workflow.Basic

/-!
# From workflows to documents

A workflow as an author could have written it. Fields that have the value they take when absent are
left out.

## Main definitions

* `Step.decompile`, `Workflow.decompile`: a step and a workflow as written
-/

namespace WorkflowEngine

/-- A text that is not empty. -/
def nonEmpty? (s : String) : Option String := if s.isEmpty then none else some s

/-- A flag that is set. -/
def flag? (b : Bool) : Option Bool := if b then some true else none

/-- The bound of a loop as written. -/
def Bound.toJson : Bound → Json
  | .count n => .num (.int n)
  | .template text => .str text

/-- What every step has, as written. -/
def Head.decompile (h : Head) (type : String) : StepFields :=
  { id := nonEmpty? h.id
    type := some type
    name := h.name
    timeout := h.policy.timeoutSecs
    retryCount := h.policy.retryCount
    continueOnError := flag? h.policy.continueOnError }

namespace Step

mutual
/-- A step as written. -/
def decompile : Step → StepNode
  | .simple head leaf =>
    let f := head.decompile leaf.kind.name
    .mk { f with
          action := nonEmpty? leaf.action
          config := leaf.config
          model := leaf.model
          prompt := leaf.prompt }
      none none none none none
  | .conditional head condition ifSteps elseSteps cases defaultSteps =>
    .mk { head.decompile "conditional" with condition := nonEmpty? condition }
      (decompileOption ifSteps) (decompileOption elseSteps) (decompileCases cases)
      (decompileOption defaultSteps) none
  | .loop head rule body =>
    .mk { head.decompile "loop" with
          loopType := rule.type.map LoopType.name
          condition := rule.condition
          maxIterations := rule.bound.map Bound.toJson
          breakOn := rule.breakOn
          onError := if rule.onError = .fail then none else some rule.onError.name }
      none none none none (some (decompileList body))
  | .parallel head rule body =>
    .mk { head.decompile "parallel" with
          maxConcurrency := rule.maxConcurrency
          failFast := flag? rule.failFast }
      none none none none (some (decompileList body))

/-- Steps that may be absent. -/
def decompileOption : Option (List Step) → Option (List StepNode)
  | none => none
  | some steps => some (decompileList steps)

/-- Cases that may be absent. -/
def decompileCases : Option (List (String × List Step)) → Option (List (String × List StepNode))
  | none => none
  | some cases => some (decompileCaseList cases)

/-- Cases. -/
def decompileCaseList : List (String × List Step) → List (String × List StepNode)
  | [] => []
  | (key, steps) :: cases => (key, decompileList steps) :: decompileCaseList cases

/-- Steps in order. -/
def decompileList : List Step → List StepNode
  | [] => []
  | s :: ss => decompile s :: decompileList ss
end

end Step

/-- A parameter as written. -/
def Parameter.decompile (p : Parameter) : ParameterNode :=
  { type := p.type.map ParameterType.name
    description := p.description
    default := p.default
    required := flag? p.required }

/-- A workflow as written. -/
def Workflow.decompile (w : Workflow) : Document :=
  { id := nonEmpty? w.id
    name := nonEmpty? w.name
    description := w.description
    version := w.version
    parent := w.parent
    isAbstract := flag? w.isAbstract
    reusable := w.reusable
    parameters := w.parameters.map fun (name, p) => (name, p.decompile)
    vars := w.vars
    steps := Step.decompileList w.steps
    metadata := w.metadata
    createdAt := w.createdAt
    updatedAt := w.updatedAt }

end WorkflowEngine
