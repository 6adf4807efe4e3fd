import WorkflowEngine.Json.Basic
import WorkflowEngine.Timestamp

/-!
# Workflows

A workflow is a tree of steps. A simple step is one action that is left to others; the other steps
hold lists of steps: a conditional chooses one of them, a loop repeats one and a parallel step runs
the steps of one at the same time.

## Main definitions

* `Step`: the tree
* `Step.children`: the lists of steps that a step holds
* `Workflow`: a workflow
* `Workflow.stepCount`: the number of all steps in the tree
-/

namespace WorkflowEngine

/-- The kinds of values that a parameter may have. -/
inductive ParameterType where
  | string
  | number
  | boolean
  | object
  | array
deriving Repr, DecidableEq

/-- The kind of values with a name. -/
def ParameterType.ofName? : String → Option ParameterType
  | "string" => some .string
  | "number" => some .number
  | "boolean" => some .boolean
  | "object" => some .object
  | "array" => some .array
  | _ => none

/-- The name of a kind of values. -/
def ParameterType.name : ParameterType → String
  | .string => "string"
  | .number => "number"
  | .boolean => "boolean"
  | .object => "object"
  | .array => "array"

/-- A parameter. It has no type if the document gives none or an unknown one. -/
structure Parameter where
  type : Option ParameterType
  description : Option String
  default : Option Json
  required : Bool
deriving Repr, Inhabited

/-- The categories of simple steps. -/
inductive LeafKind where
  | git
  | code
  | llm
  | command
  | platform
  | planning
  | human
  | review
deriving Repr, DecidableEq, Inhabited

/-- The category with a name. -/
def LeafKind.ofName? : String → Option LeafKind
  | "git" => some .git
  | "code" => some .code
  | "llm" => some .llm
  | "command" => some .command
  | "platform" => some .platform
  | "planning" => some .planning
  | "human" => some .human
  | "review" => some .review
  | _ => none

/-- The name of a category. -/
def LeafKind.name : LeafKind → String
  | .git => "git"
  | .code => "code"
  | .llm => "llm"
  | .command => "command"
  | .platform => "platform"
  | .planning => "planning"
  | .human => "human"
  | .review => "review"

/-- What every step may say about time, repetition and failure. -/
structure Policy where
  timeoutSecs : Option Nat
  retryCount : Option Nat
  continueOnError : Bool
deriving Repr, DecidableEq, Inhabited

/-- What every step has. -/
structure Head where
  id : String
  name : Option String
  policy : Policy
deriving Repr, DecidableEq, Inhabited

/-- What a simple step asks for. -/
structure Leaf where
  kind : LeafKind
  action : String
  config : Dict Json
  model : Option String
  prompt : Option String
deriving Repr, Inhabited

/-- When a loop goes on: as long as a condition holds, up to a count, or until nothing fails. -/
inductive LoopType where
  | whileTrue
  | count
  | retry
deriving Repr, DecidableEq

/-- The type of loops with a name. -/
def LoopType.ofName? : String → Option LoopType
  | "while" => some .whileTrue
  | "for" => some .count
  | "retry" => some .retry
  | _ => none

/-- The name of a type of loops. -/
def LoopType.name : LoopType → String
  | .whileTrue => "while"
  | .count => "for"
  | .retry => "retry"

/-- What a failing step does to the loop around it. -/
inductive OnError where
  | fail
  | proceed
  | leave
deriving Repr, DecidableEq, Inhabited

/-- The effect of failures on loops with a name. -/
def OnError.ofName? : String → Option OnError
  | "fail" => some .fail
  | "continue" => some .proceed
  | "break" => some .leave
  | _ => none

/-- The name of an effect of failures on loops. -/
def OnError.name : OnError → String
  | .fail => "fail"
  | .proceed => "continue"
  | .leave => "break"

/-- The greatest number of iterations: a count, or a template that gives one. -/
inductive Bound where
  | count (n : Nat)
  | template (text : String)
deriving Repr, DecidableEq

/-- How a loop goes on and ends. It has no type if the document gives none or an unknown one. -/
structure LoopRule where
  type : Option LoopType
  condition : Option String
  bound : Option Bound
  breakOn : Option String
  onError : OnError
deriving Repr, DecidableEq, Inhabited

/-- How the steps of a parallel step run. -/
structure ParallelRule where
  maxConcurrency : Option Int
  failFast : Bool
deriving Repr, DecidableEq, Inhabited

/-- A step. A conditional chooses by truth if it has no cases, and by value if it has. -/
inductive Step where
  | simple (head : Head) (leaf : Leaf)
  | conditional (head : Head) (condition : String) (ifSteps elseSteps : Option (List Step))
    (cases : Option (List (String × List Step))) (defaultSteps : Option (List Step))
  | loop (head : Head) (rule : LoopRule) (body : List Step)
  | parallel (head : Head) (rule : ParallelRule) (body : List Step)
deriving Repr, Inhabited

namespace Step

/-- What every step has. -/
def head : Step → Head
  | .simple head _ => head
  | .conditional head _ _ _ _ _ => head
  | .loop head _ _ => head
  | .parallel head _ _ => head

/-- The id of a step. -/
def id (s : Step) : String := s.head.id

/-- What a step says about time, repetition and failure. -/
def policy (s : Step) : Policy := s.head.policy

/-- The name of the type of a step. -/
def typeName : Step → String
  | .simple _ leaf => leaf.kind.name
  | .conditional .. => "conditional"
  | .loop .. => "loop"
  | .parallel .. => "parallel"

/-- The lists of steps that a step holds, in order. -/
def children : Step → List (List Step)
  | .simple .. => []
  | .conditional _ _ ifSteps elseSteps cases defaultSteps =>
    ifSteps.toList ++ elseSteps.toList ++ (cases.getD []).map Prod.snd ++ defaultSteps.toList
  | .loop _ _ body => [body]
  | .parallel _ _ body => [body]

mutual
/-- The number of steps in a tree. -/
def count : Step → Nat
  | .simple .. => 1
  | .conditional _ _ ifSteps elseSteps cases defaultSteps =>
    1 + countOption ifSteps + countOption elseSteps + countCases cases + countOption defaultSteps
  | .loop _ _ body => 1 + countList body
  | .parallel _ _ body => 1 + countList body

/-- The number of steps in the trees of a list that may be absent. -/
def countOption : Option (List Step) → Nat
  | none => 0
  | some steps => countList steps

/-- The number of steps in the trees of cases that may be absent. -/
def countCases : Option (List (String × List Step)) → Nat
  | none => 0
  | some cases => countCaseList cases

/-- The number of steps in the trees of cases. -/
def countCaseList : List (String × List Step) → Nat
  | [] => 0
  | (_, steps) :: cases => countList steps + countCaseList cases

/-- The number of steps in the trees of a list. -/
def countList : List Step → Nat
  | [] => 0
  | s :: ss => count s + countList ss
end

end Step

/-- A workflow. -/
structure Workflow where
  id : String
  name : String
  description : Option String
  version : Option String
  /-- The workflow that this one extends. -/
  parent : Option String
  /-- The workflow is only there to be extended. -/
  isAbstract : Bool
  reusable : Option Bool
  parameters : Dict Parameter
  vars : Dict Json
  steps : List Step
  metadata : Dict Json
  createdAt : Option Timestamp
  updatedAt : Option Timestamp
deriving Repr, Inhabited

/-- The number of all steps in the tree. -/
def Workflow.stepCount (w : Workflow) : Nat := Step.countList w.steps

end WorkflowEngine
