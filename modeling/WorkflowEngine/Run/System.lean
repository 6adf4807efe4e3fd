import WorkflowEngine.Run.Leaf
import WorkflowEngine.Run.Task
import WorkflowEngine.Run.World

/-!
# Systems

A system is a program at work: the program itself, the step it waits for as a tree of tasks, and the
programs that do the simple steps. It consists of threads, one for the program with the step it
waits for and one for each worker of a parallel step; a thread has the path of its task as its name.
A move advances one thread. Threads that wait for something from outside do not move, but for those
whose wait ends by itself; they are told what they wait for.

## Main definitions

* `System`: a program at work
* `Setting`: what moves depend on
* `System.move`: the move of a thread
* `System.waitsFor?`, `System.tell`: what a thread waits for from outside, and telling it
-/

namespace WorkflowEngine

/-- The name of a thread: the path of its task. -/
abbrev Path := List Nat

/-- A program that does a simple step. -/
abbrev LeafProgram := Program (Except StepError Json)

/-- The program of a system: it moves on its own or waits for a step. -/
inductive Main (α : Type) where
  | program (p : Program α)
  | stepping (run : Assignment) (task : Task) (next : Outcome × Context → Program α)

/-- A program at work. -/
structure System (α : Type) where
  world : World
  main : Main α
  /-- The simple steps that are being done, by their threads. -/
  leaves : List (Path × LeafProgram)

/-- What moves depend on: how simple steps are done, and what is told of steps that are over. -/
structure Setting where
  env : Env
  leaf : Assignment → Head → Leaf → Nat → Context → LeafProgram
  tellFinished : Assignment → Step → Nat → Outcome → Nat → Program Unit

/-- The setting of runs. -/
def Setting.ofConfig (engine : Expr.Engine) (config : Config) : Setting :=
  { env := ⟨engine, config.defaultMaxIterations⟩
    leaf := Leaf.run engine config
    tellFinished := WorkflowEngine.tellFinished }

/-- The setting of steps on their own, whose simple steps are left to someone as a whole. -/
def Setting.ofSteps (env : Env) : Setting :=
  { env
    leaf := fun _ head leaf depth c => Program.request (.delegate head leaf depth c)
    tellFinished := fun _ _ _ _ _ => return () }

/-- What is seen and told of a transition. -/
def Setting.observe (setting : Setting) (run : Assignment) (w : World) : Effect → World
  | .finished step depth o ms =>
    let w := w.note (.finished step.id depth o)
    match w.perform (setting.tellFinished run step depth o ms) with
    | some ((), w) => w
    | none => w
  | _ => w

namespace System

variable {α : Type} (setting : Setting) (s : System α)

/-- A program about to work. -/
def ofProgram (world : World) (p : Program α) : System α := ⟨world, .program p, []⟩

/-- What the program ended with. -/
def result? : Option α :=
  match s.main with
  | .program (.done a) => some a
  | _ => none

/-- The simple step that a thread does. -/
def leaf? (path : Path) : Option LeafProgram := s.leaves.lookup path

/-- A thread does a simple step by a program. -/
def setLeaf (path : Path) (p : LeafProgram) : System α :=
  { s with leaves := (path, p) :: s.leaves.filter fun l => l.1 != path }

/-- A thread has done a simple step. -/
def dropLeaf (path : Path) : System α :=
  { s with leaves := s.leaves.filter fun l => l.1 != path }

/-- The move of the thread of the program itself. -/
def moveProgram (p : Program α) : Option (System α) :=
  match p with
  | .done _ => none
  | .ask (.runStep run step c) k => some { s with main := .stepping run (.start step c 0) k }
  | .ask r k =>
    (s.world.serve r).map fun (reply, world) => { s with world, main := .program (k reply) }

/-- The move of a thread that does a simple step by a program. -/
def moveLeaf (path : Path) (run : Assignment) (task : Task)
    (next : Outcome × Context → Program α) (p : LeafProgram) : Option (System α) :=
  match p with
  | .done r =>
    (task.answerAt r path).map fun t => { s.dropLeaf path with main := .stepping run t next }
  | .ask r k =>
    match s.world.serve r with
    | some (reply, world) => some ({ s with world }.setLeaf path (k reply))
    | none => (s.world.release r).map fun reply => s.setLeaf path (k reply)

/-- The move of a thread that does no simple step: its task advances, or begins a simple step, or
the step of the program is over. -/
def moveTask (path : Path) (run : Assignment) (task : Task)
    (next : Outcome × Context → Program α) (elapsedMs : Nat) : Option (System α × Effect) :=
  match task.advanceAt setting.env ⟨s.world.isCancelled run.executionId, elapsedMs⟩ path with
  | some (t, effect) =>
    let world := setting.observe run s.world effect
    some ({ s with world, main := .stepping run t next }, effect)
  | none =>
    match task.callAt? path with
    | some (head, leaf, depth, c) =>
      some (s.setLeaf path (setting.leaf run head leaf depth c), .silent)
    | none =>
      match path, task.outcome? with
      | [], some o => some ({ s with main := .program (next (o, task.context)) }, .silent)
      | _, _ => none

/-- The move of a thread, with what it opens or stops, unless it waits. If a step is over by it,
then that step has taken a number of milliseconds. -/
def move (path : Path) (elapsedMs : Nat := 0) : Option (System α × Effect) :=
  match s.main with
  | .program p =>
    match path with
    | [] => (s.moveProgram p).map (·, .silent)
    | _ :: _ => none
  | .stepping run task next =>
    match s.leaf? path with
    | some p => (s.moveLeaf path run task next p).map (·, .silent)
    | none => s.moveTask setting path run task next elapsedMs

/-- What a thread waits for from outside. -/
def waitsFor? (path : Path) : Option Request :=
  match s.leaf? path with
  | some (.ask r _) => if (s.world.serve r).isSome then none else some r
  | _ => none

/-- Tells a thread what it waits for. -/
def tell (path : Path) (reply : (r : Request) → Option r.Reply) : Option (System α) :=
  match s.leaf? path with
  | some (.ask r k) => (reply r).map fun a => s.setLeaf path (k a)
  | _ => none

end System

end WorkflowEngine
