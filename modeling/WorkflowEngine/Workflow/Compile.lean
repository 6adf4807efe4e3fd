import WorkflowEngine.Document.Basic
import WorkflowEngine.Json.Printer
import WorkflowEngine.Text.Blank
import WorkflowEngine.Text.Case
import WorkflowEngine.Workflow.Basic

/-!
# From documents to workflows

A document becomes a workflow if every step can be given a type. The first step that cannot, in the
order of the document, is the reason why there is none.

## Main definitions

* `CompileError`, `CompileError.message`: why a document is no workflow, and the text that says so
* `StepNode.compile`, `Document.compile`: a step and a workflow from what is written
-/

namespace WorkflowEngine

/-- Why a document is no workflow. The step is named by its id. -/
inductive CompileError where
  | missingType (step : String)
  /-- A type that there is no more. -/
  | retiredType (step type : String)
  | unknownType (step type : String)
  | invalidField (step field value : String)
deriving Repr, DecidableEq

/-- The text that says why a document is no workflow. -/
def CompileError.message : CompileError → String
  | .missingType step => "step '" ++ step ++ "' is missing a type"
  | .retiredType step type =>
    "step '" ++ step ++ "' uses unsupported step type '" ++ type ++
      "'; migration required (inline the steps or use 'extends')"
  | .unknownType step type => "step '" ++ step ++ "' has unknown type '" ++ type ++ "'"
  | .invalidField step field value =>
    "step '" ++ step ++ "' has invalid " ++ field ++ " '" ++ value ++ "'"

namespace StepNode

/-- The types that there are no more. -/
def retiredTypes : List String := ["subworkflow", "slot"]

/-- A type that there is no more, in whatever letter case. -/
def isRetired (type : String) : Bool := retiredTypes.contains (Text.asciiLower type)

/-- How a step is named in errors. -/
def displayId (id : String) : String := if id.isEmpty then "<unnamed>" else id

/-- The greatest count. -/
def maxCount : Nat := Bits.words 32 - 1

/-- The whole part of a float as a count: nothing below zero, and no more than the greatest one. -/
def countOfFloat (x : Float) : Nat :=
  if x.isNaN || x < 0.0 then 0 else min x.floor.toUInt64.toNat maxCount

/-- A number as a count. -/
def countOfNumber : Json.Number → Nat
  | .int n => min n.toNat maxCount
  | .float x => countOfFloat x

/-- A text that is a count. -/
def countOfText? (s : String) : Option Nat :=
  let digits := match s.toList with
    | '+' :: cs => cs
    | cs => cs
  (Data.Word.natInBase? 10 digits).filter (· ≤ maxCount)

/-- The bound of a loop. A text that is no count is a template. -/
def compileBound (id : String) : Option Json → Except CompileError (Option Bound)
  | none => .ok none
  | some .null => .ok none
  | some (.num n) => .ok (some (.count (countOfNumber n)))
  | some (.str s) =>
    match countOfText? (Text.trim s) with
    | some n => .ok (some (.count n))
    | none => .ok (some (.template s))
  | some v => .error (.invalidField (displayId id) "maxIterations" v.compact)

/-- What a failing step does to a loop. -/
def compileOnError (id : String) : Option String → Except CompileError OnError
  | none => .ok .fail
  | some text =>
    match OnError.ofName? text with
    | some effect => .ok effect
    | none => .error (.invalidField (displayId id) "onError" text)

/-- How a loop goes on and ends. -/
def compileLoopRule (id : String) (f : StepFields) : Except CompileError LoopRule := do
  let onError ← compileOnError id f.onError
  let bound ← compileBound id f.maxIterations
  return {
    type := f.loopType.bind LoopType.ofName?
    condition := f.condition
    bound
    breakOn := f.breakOn
    onError }

/-- What a step has whatever its type. -/
def headOf (f : StepFields) : Head :=
  { id := f.id.getD ""
    name := f.name
    policy :=
      { timeoutSecs := f.timeout
        retryCount := f.retryCount
        continueOnError := f.continueOnError.getD false } }

/-- A step whose type is none of those that hold steps. -/
def compileLeaf (f : StepFields) (type : String) : Except CompileError Step :=
  let head := headOf f
  if isRetired type then .error (.retiredType (displayId head.id) type)
  else
    match LeafKind.ofName? type with
    | none => .error (.unknownType (displayId head.id) type)
    | some kind =>
      .ok (.simple head
        { kind, action := f.action.getD "", config := f.config, model := f.model,
          prompt := f.prompt })

mutual
/-- A step from what is written. Only the lists that belong to its type are looked at. -/
def compile : StepNode → Except CompileError Step
  | .mk f ifSteps elseSteps cases defaultSteps steps =>
    match f.type with
    | none => .error (.missingType (displayId (headOf f).id))
    | some "conditional" => do
      let ifSteps ← compileOption ifSteps
      let elseSteps ← compileOption elseSteps
      let cases ← compileCases cases
      let defaultSteps ← compileOption defaultSteps
      return .conditional (headOf f) (f.condition.getD "") ifSteps elseSteps cases defaultSteps
    | some "loop" => do
      let rule ← compileLoopRule (headOf f).id f
      let body ← compileOption steps
      return .loop (headOf f) rule (body.getD [])
    | some "parallel" => do
      let body ← compileOption steps
      let rule := { maxConcurrency := f.maxConcurrency, failFast := f.failFast.getD false }
      return .parallel (headOf f) rule (body.getD [])
    | some type => compileLeaf f type

/-- Steps that may be absent. -/
def compileOption : Option (List StepNode) → Except CompileError (Option (List Step))
  | none => .ok none
  | some nodes => (compileList nodes).map some

/-- Cases that may be absent. -/
def compileCases :
    Option (List (String × List StepNode)) →
      Except CompileError (Option (List (String × List Step)))
  | none => .ok none
  | some cases => (compileCaseList cases).map some

/-- Cases. -/
def compileCaseList :
    List (String × List StepNode) → Except CompileError (List (String × List Step))
  | [] => .ok []
  | (key, nodes) :: cases => do
    let steps ← compileList nodes
    return (key, steps) :: (← compileCaseList cases)

/-- Steps in order; the first error counts. -/
def compileList : List StepNode → Except CompileError (List Step)
  | [] => .ok []
  | node :: nodes => do
    let step ← compile node
    return step :: (← compileList nodes)
end

end StepNode

/-- A parameter from what is written. -/
def ParameterNode.compile (p : ParameterNode) : Parameter :=
  { type := p.type.bind ParameterType.ofName?
    description := p.description
    default := p.default
    required := p.required.getD false }

/-- A workflow from what is written. -/
def Document.compile (d : Document) : Except CompileError Workflow := do
  let steps ← StepNode.compileList d.steps
  return {
    id := d.id.getD ""
    name := d.name.getD ""
    description := d.description
    version := d.version
    parent := d.parent
    isAbstract := d.isAbstract.getD false
    reusable := d.reusable
    parameters := d.parameters.map fun (name, p) => (name, p.compile)
    vars := d.vars
    steps
    metadata := d.metadata
    createdAt := d.createdAt
    updatedAt := d.updatedAt }

end WorkflowEngine
