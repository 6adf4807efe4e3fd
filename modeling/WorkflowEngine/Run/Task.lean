import WorkflowEngine.Context
import WorkflowEngine.Run.Outcome
import WorkflowEngine.Workflow.Basic

/-!
# Tasks

A task is a step that is being run: its context, what is done next, and the frames of the steps
around that wait for it. The workers of a parallel step are tasks of their own, each with a copy of
the context, so that tasks form a tree; a path of numbers names a task in the tree. One transition
moves one task, and what the tree does depends only on the order in which tasks are moved and on how
the simple steps are answered.

## Main definitions

* `Task`, `Block`, `Worker`: tasks and the parallel steps within them
* `Task.advance`: the transition of a task that waits for no one
* `Task.answer`: the transition of a task that waits for a simple step
* `Task.advanceAt`, `Task.answerAt`: transitions of a task within the tree
-/

namespace WorkflowEngine

/-- A loop that is being run: its iteration, what is left of the body in this iteration, and whether
a step of the body has failed in it. -/
structure LoopFrame where
  head : Head
  rule : LoopRule
  body : List Step
  depth : Nat
  iteration : Nat
  rest : List Step
  failed : Bool

/-- A conditional that is being run: the name of its branch, and what is left of that. -/
structure BranchFrame where
  head : Head
  name : String
  rest : List Step
  total : Nat
  depth : Nat

/-- What waits for the outcome of a step. -/
inductive Frame where
  /-- The outcome is to be recorded and told. -/
  | finish (step : Step) (depth : Nat)
  | branch (frame : BranchFrame)
  | loop (frame : LoopFrame)

/-- A step of a parallel step that has been run, with the results recorded meanwhile. -/
structure Finished where
  index : Nat
  outcome : Outcome
  results : List StepResult

/-- A worker of a parallel step: it looks for a step to run, runs one, or has stopped. -/
inductive Worker (τ : Type) where
  | idle
  | running (index : Nat) (task : τ)
  | stopped

/-- A parallel step that is being run: how many of its steps have been taken by workers, those that
have been run, and the workers. -/
structure Block (τ : Type) where
  head : Head
  body : List Step
  depth : Nat
  taken : Nat
  finished : List Finished
  workers : List (Worker τ)

/-- What a task does next. -/
inductive Control (τ : Type) where
  /-- A step begins. -/
  | enter (step : Step) (depth : Nat)
  /-- A simple step waits for its answer. -/
  | calling (head : Head) (leaf : Leaf) (depth : Nat)
  /-- A parallel step waits for its workers. -/
  | joining (block : Block τ)
  /-- The steps of a branch or body go on. -/
  | proceed
  /-- A loop begins an iteration. -/
  | iterate
  /-- A step has an outcome. -/
  | settled (outcome : Outcome)

/-- A step that is being run. -/
inductive Task where
  | mk (context : Context) (control : Control Task) (frames : List Frame)

/-- What others see of a transition. -/
inductive Effect where
  | silent
  /-- A step is over. -/
  | finished (step : Step) (depth : Nat) (outcome : Outcome) (durationMs : Nat)
  /-- A number of workers begin. -/
  | opened (workers : Nat)
  /-- A worker has stopped. -/
  | stopped

/-- What runs depend on. -/
structure Env where
  engine : Expr.Engine
  defaultMaxIterations : Nat

/-- What a transition depends on at its moment: whether the run is cancelled, and how long the step
that is over has taken. -/
structure Moment where
  cancelled : Bool
  elapsedMs : Nat := 0

/-! ### Choices and bounds -/

namespace Env

variable (env : Env)

/-- An error in an expression of a step. -/
def expressionError (id : String) (e : Template.EvalError) : StepError := .expression id e.message

/-- The truth of a condition of a step. -/
def condition (id template : String) (c : Context) : Except StepError Bool :=
  (Template.evaluateCondition env.engine template c.toJson).mapError (expressionError id)

/-- The branch that a conditional takes, with its name, or none. -/
def selectBranch (id condition : String) (ifSteps elseSteps : Option (List Step))
    (cases : Option (List (String × List Step))) (defaultSteps : Option (List Step))
    (c : Context) : Except StepError (Option (String × List Step)) :=
  match cases with
  | some cases => do
    let v ← (Template.evaluate env.engine condition c.toJson).mapError (expressionError id)
    match cases.lookup v.display with
    | some steps => return some (v.display, steps)
    | none => return defaultSteps.map ("default", ·)
  | none => do
    if ← env.condition id condition c then return ifSteps.map ("if", ·)
    else return elseSteps.map ("else", ·)

/-- The greatest count. -/
def maxCount : Nat := Bits.words 32 - 1

/-- A finite float as a count. -/
def countOfFloat? (x : Float) : Option Nat :=
  if x.isFinite then some (if x < 0.0 then 0 else min x.toUInt64.toNat maxCount) else none

/-- A value as a count: numbers and texts that are numbers. -/
def countOf? : Json → Option Nat
  | .num n => countOfFloat? n.toFloat
  | .str s => (Decimal.ofText (Text.trimmed s.toList)).bind countOfFloat?
  | _ => none

/-- The bound of a loop now. -/
def bound (id : String) (rule : LoopRule) (c : Context) : Except StepError Nat :=
  match rule.bound with
  | none => .ok env.defaultMaxIterations
  | some (.count n) => .ok n
  | some (.template text) => do
    let v ← (Template.evaluate env.engine text c.toJson).mapError (expressionError id)
    match countOf? v with
    | some n => return n
    | none =>
      throw (.expression id
        ("maxIterations '" ++ text ++ "' evaluated to non-numeric " ++ v.compact))

end Env

/-- The number of the next iteration; the counter has 32 bits. -/
def nextIteration (n : Nat) : Nat := (n + 1) % Bits.words 32

/-- The type of a loop; one without a type counts. -/
def LoopRule.effectiveType (r : LoopRule) : LoopType := r.type.getD .count

/-- The number of workers of a parallel step with a number of steps. -/
def ParallelRule.workers (r : ParallelRule) (total : Nat) : Nat :=
  match r.maxConcurrency with
  | some n => if 0 < n then min n.toNat total else total
  | none => total

/-! ### Blocks -/

namespace Block

variable {τ : Type}

/-- All workers have stopped. -/
def isOver (b : Block τ) : Bool :=
  b.workers.all fun
    | .stopped => true
    | _ => false

/-- The steps that have been run, in the order of the list. -/
def inOrder (b : Block τ) : List Finished := b.finished.mergeSort fun x y => x.index ≤ y.index

/-- The context with the results of all steps. -/
def recordAll (b : Block τ) (c : Context) : Context :=
  b.inOrder.foldl (fun c f => f.results.foldl Context.record c) c

/-- The failures of the steps, with their reasons. -/
def failures (b : Block τ) : List (String × String) :=
  b.inOrder.filterMap fun f =>
    match f.outcome with
    | .ok _ => none
    | .error e =>
      if e.isCancelled then none
      else some (((b.body[f.index]?).map Step.id).getD "", e.reason)

/-- The number of steps that did not fail. -/
def completed (b : Block τ) : Nat := (b.finished.filter fun f => f.outcome.isOk).length

/-- The outcome of the parallel step. -/
def outcome (b : Block τ) : Outcome :=
  if b.finished.any fun f => f.outcome.isCancelled then .error .cancelled
  else if b.failures.isEmpty then .ok (.parallel b.completed)
  else .error (.parallelFailure b.head.id b.failures)

/-- Replaces a worker. -/
def setWorker (b : Block τ) (i : Nat) (w : Worker τ) : Block τ :=
  { b with workers := b.workers.set i w }

end Block

namespace Task

/-- The context of a task. -/
def context : Task → Context
  | .mk c _ _ => c

/-- What a task does next. -/
def control : Task → Control Task
  | .mk _ control _ => control

/-- The frames of a task. -/
def frames : Task → List Frame
  | .mk _ _ fs => fs

/-- The task that runs a step. -/
def start (step : Step) (c : Context) (depth : Nat) : Task := .mk c (.enter step depth) []

/-- The outcome of a task that is over. -/
def outcome? : Task → Option Outcome
  | .mk _ (.settled o) [] => some o
  | _ => none

/-! ### Transitions of one task -/

/-- A step begins. -/
def enter (env : Env) (m : Moment) (c : Context) (step : Step) (depth : Nat) (fs : List Frame) :
    Task × Effect :=
  let fs := .finish step depth :: fs
  if m.cancelled then (.mk c (.settled (.error .cancelled)) fs, .silent)
  else
    match step with
    | .simple head leaf => (.mk c (.calling head leaf depth) fs, .silent)
    | .conditional head condition ifSteps elseSteps cases defaultSteps =>
      match env.selectBranch head.id condition ifSteps elseSteps cases defaultSteps c with
      | .error e => (.mk c (.settled (.error e)) fs, .silent)
      | .ok none => (.mk c (.settled (.ok (.branch none 0 none))) fs, .silent)
      | .ok (some (name, steps)) =>
        let frame : BranchFrame :=
          { head, name, rest := steps, total := steps.length, depth := depth + 1 }
        (.mk c .proceed (.branch frame :: fs), .silent)
    | .loop head rule body =>
      let frame : LoopFrame :=
        { head, rule, body, depth := depth + 1, iteration := 0, rest := [], failed := false }
      (.mk c .iterate (.loop frame :: fs), .silent)
    | .parallel head rule body =>
      if body.isEmpty then (.mk c (.settled (.ok (.parallel 0))) fs, .silent)
      else
        let n := rule.workers body.length
        let block : Block Task :=
          { head, body, depth := depth + 1, taken := 0, finished := [],
            workers := List.replicate n .idle }
        (.mk c (.joining block) fs, .opened n)

/-- A loop ends. -/
def leaveLoop (c : Context) (f : LoopFrame) (result : Except StepError (Nat × LoopExit))
    (fs : List Frame) : Task :=
  .mk (c.exitLoop f.head.id) (.settled (result.map fun (n, exit) => .loop n exit)) fs

/-- A loop begins an iteration, unless it ends before. -/
def iterate (env : Env) (m : Moment) (c : Context) (f : LoopFrame) (fs : List Frame) : Task :=
  if m.cancelled then leaveLoop c f (.error .cancelled) fs
  else
    let n := nextIteration f.iteration
    match env.bound f.head.id f.rule c with
    | .error e => leaveLoop c f (.error e) fs
    | .ok max =>
      if max < n then leaveLoop c f (.ok (n - 1, .maxIterations)) fs
      else
        let c := c.enterLoop f.head.id n
        let begins := .mk c .proceed
          (.loop { f with iteration := n, rest := f.body, failed := false } :: fs)
        if f.rule.effectiveType = .whileTrue then
          match env.condition f.head.id (f.rule.condition.getD "false") c with
          | .error e => leaveLoop c f (.error e) fs
          | .ok true => begins
          | .ok false => leaveLoop c f (.ok (n - 1, .conditionFalse)) fs
        else begins

/-- A loop is asked whether it breaks off after an iteration. -/
def breaksOff (env : Env) (c : Context) (f : LoopFrame) : Except StepError Bool :=
  match f.rule.breakOn with
  | none => .ok false
  | some template => env.condition f.head.id template c

/-- A loop is at the end of an iteration. -/
def afterBody (env : Env) (c : Context) (f : LoopFrame) (fs : List Frame) : Task :=
  let again := .mk c .iterate (.loop f :: fs)
  match breaksOff env c f with
  | .error e => leaveLoop c f (.error e) fs
  | .ok true => leaveLoop c f (.ok (f.iteration, .breakOn)) fs
  | .ok false =>
    match f.rule.effectiveType with
    | .retry => if f.failed then again else leaveLoop c f (.ok (f.iteration, .succeeded)) fs
    | .whileTrue => again
    | .count =>
      match env.bound f.head.id f.rule c with
      | .error e => leaveLoop c f (.error e) fs
      | .ok max =>
        if max ≤ f.iteration then leaveLoop c f (.ok (f.iteration, .countReached)) fs else again

/-- The steps of a branch go on. -/
def proceedBranch (m : Moment) (c : Context) (f : BranchFrame) (fs : List Frame) : Task :=
  match f.rest with
  | [] => .mk c (.settled (.ok (.branch (some f.name) f.total none))) fs
  | s :: rest =>
    if m.cancelled then .mk c (.settled (.error .cancelled)) fs
    else .mk c (.enter s f.depth) (.branch { f with rest } :: fs)

/-- The steps of a body go on. -/
def proceedLoop (env : Env) (m : Moment) (c : Context) (f : LoopFrame) (fs : List Frame) : Task :=
  match f.rest with
  | [] => afterBody env c f fs
  | s :: rest =>
    if m.cancelled then leaveLoop c f (.error .cancelled) fs
    else .mk c (.enter s f.depth) (.loop { f with rest } :: fs)

/-- A step of a branch has an outcome. -/
def returnToBranch (c : Context) (f : BranchFrame) (o : Outcome) (fs : List Frame) : Task :=
  match o with
  | .ok _ => .mk c .proceed (.branch f :: fs)
  | .error e =>
    if e.isCancelled then .mk c (.settled (.error .cancelled)) fs
    else if f.head.policy.continueOnError then
      .mk c (.settled (.ok (.branch (some f.name) 0 (some e.message)))) fs
    else .mk c (.settled (.error e)) fs

/-- A step of a body has an outcome. -/
def returnToLoop (c : Context) (f : LoopFrame) (o : Outcome) (fs : List Frame) : Task :=
  match o with
  | .ok _ => .mk c .proceed (.loop f :: fs)
  | .error e =>
    if e.isCancelled then leaveLoop c f (.error .cancelled) fs
    else
      match f.rule.onError with
      | .fail => leaveLoop c f (.error e) fs
      | .proceed => .mk c .proceed (.loop { f with failed := true } :: fs)
      | .leave => leaveLoop c f (.ok (f.iteration, .errorBreak)) fs

/-- A step is over: its result is recorded, unless the run was cancelled, and told. -/
def finish (m : Moment) (c : Context) (step : Step) (depth : Nat) (o : Outcome)
    (fs : List Frame) : Task × Effect :=
  let c := if o.isCancelled then c else c.record (.ofOutcome step.id o m.elapsedMs)
  (.mk c (.settled o) fs, .finished step depth o m.elapsedMs)

/-- The transition of a task, if it waits for no one and is not over. -/
def advance (env : Env) (m : Moment) : Task → Option (Task × Effect)
  | .mk c (.enter step depth) fs => some (enter env m c step depth fs)
  | .mk _ (.calling ..) _ => none
  | .mk c (.joining block) fs =>
    if block.isOver then some (.mk (block.recordAll c) (.settled block.outcome) fs, .silent)
    else none
  | .mk c .proceed (.branch f :: fs) => some (proceedBranch m c f fs, .silent)
  | .mk c .proceed (.loop f :: fs) => some (proceedLoop env m c f fs, .silent)
  | .mk _ .proceed _ => none
  | .mk c .iterate (.loop f :: fs) => some (iterate env m c f fs, .silent)
  | .mk _ .iterate _ => none
  | .mk c (.settled o) (.finish step depth :: fs) => some (finish m c step depth o fs)
  | .mk c (.settled o) (.branch f :: fs) => some (returnToBranch c f o fs, .silent)
  | .mk c (.settled o) (.loop f :: fs) => some (returnToLoop c f o fs, .silent)
  | .mk _ (.settled _) [] => none

/-- The outcome of a simple step that was answered. -/
def leafOutcome (head : Head) : Except StepError Json → Outcome
  | .ok v => .ok (.value v)
  | .error e =>
    if e.isCancelled then .error e
    else if head.policy.continueOnError then .ok (.recovered e)
    else .error e

/-- The transition of a task whose simple step is answered. -/
def answer (r : Except StepError Json) : Task → Option Task
  | .mk c (.calling head _ _) fs => some (.mk c (.settled (leafOutcome head r)) fs)
  | _ => none

/-! ### Transitions within the tree -/

/-- A worker that looks for a step takes the next one, if there is one. It runs in a copy of the
context. -/
def take (m : Moment) (c : Context) (b : Block Task) (i : Nat) : Block Task × Effect :=
  let b' := { b with taken := b.taken + 1 }
  match b.body[b.taken]? with
  | none => (b'.setWorker i .stopped, .stopped)
  | some s =>
    if m.cancelled then
      let untouched : Finished := ⟨b.taken, .error .cancelled, []⟩
      ({ b' with finished := b.finished ++ [untouched] }.setWorker i .stopped, .stopped)
    else (b'.setWorker i (.running b.taken (start s c b.depth)), .silent)

/-- A worker whose task is over hands in what was recorded, and looks for another step. -/
def handIn (c : Context) (b : Block Task) (i index : Nat) (t : Task) (o : Outcome) : Block Task :=
  let results := t.context.results.drop c.results.length
  let done : Finished := ⟨index, o, results⟩
  { b with finished := b.finished ++ [done] }.setWorker i .idle

/-- The transition of a worker of a block: of the worker itself, or of its task by `inner`. -/
def advanceWorker (m : Moment) (c : Context) (b : Block Task) (i : Nat)
    (inner : Task → Option (Task × Effect)) : Option (Block Task × Effect) :=
  match b.workers[i]? with
  | some .idle => some (take m c b i)
  | some (.running index t) =>
    match t.outcome? with
    | some o => some (handIn c b i index t o, .silent)
    | none => (inner t).map fun (t, e) => (b.setWorker i (.running index t), e)
  | _ => none

/-- The transition of the task at a path. -/
def advanceAt (env : Env) (m : Moment) : List Nat → Task → Option (Task × Effect)
  | [], t => t.advance env m
  | i :: path, .mk c (.joining b) fs =>
    (advanceWorker m c b i (advanceAt env m path)).map fun (b, e) => (.mk c (.joining b) fs, e)
  | _ :: _, _ => none

/-- The task at a path. -/
def at? : List Nat → Task → Option Task
  | [], t => some t
  | i :: path, .mk _ (.joining b) _ =>
    match b.workers[i]? with
    | some (.running _ t) => at? path t
    | _ => none
  | _ :: _, _ => none

/-- The task at a path has its simple step answered. -/
def answerAt (r : Except StepError Json) : List Nat → Task → Option Task
  | [], t => t.answer r
  | i :: path, .mk c (.joining b) fs =>
    match b.workers[i]? with
    | some (.running index t) =>
      (answerAt r path t).map fun t => .mk c (.joining (b.setWorker i (.running index t))) fs
    | _ => none
  | _ :: _, _ => none

/-- The simple step that the task at a path waits for, with its depth and the context. -/
def callAt? (path : List Nat) (t : Task) : Option (Head × Leaf × Nat × Context) :=
  match t.at? path with
  | some (.mk c (.calling head leaf depth) _) => some (head, leaf, depth, c)
  | _ => none

end Task

end WorkflowEngine
