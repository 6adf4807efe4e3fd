import WorkflowEngine.Run.System
import WorkflowEngine.Simulation.Host

/-!
# Simulation

A system and its host on a clock that moves only when every thread waits, and then to the next
deadline. Threads that can move do so in the order in which they were woken, and each goes on until
it waits. How long steps take is not measured.

## Main definitions

* `Machine`: a system and its host, with the order of threads and what they wait for
* `Machine.step`: one move of the thread whose turn it is, or of the clock
* `Machine.run`: steps as long as there are any
-/

namespace WorkflowEngine.Simulation

/-- What takes turns: a thread of the system, or whoever is going to cancel the run. -/
inductive Thread where
  | path (path : Path)
  | canceller
deriving DecidableEq

/-- A thread waits for a reaction. -/
structure Wait where
  path : Path
  runId : Uuid
  reaction : Reaction
  /-- When the reaction comes, unless it has come already and hangs. -/
  readyAt : Option Nat
  /-- When the time is up. -/
  timeoutAt : Option Nat
  /-- It is an approval, which ends when the run is cancelled. -/
  isApproval : Bool
  /-- It counts as a call in progress. -/
  counts : Bool

/-- When a thread that waits is woken. -/
def Wait.deadline? (x : Wait) : Option Nat :=
  match x.readyAt, x.timeoutAt with
  | some a, some b => some (min a b)
  | some a, none => some a
  | none, b => b

/-- Whoever is going to cancel a run at a time, and how that went. -/
structure Canceller where
  runId : Uuid
  due : Nat
  result : Option (Except RunError Unit) := none

/-- A system and its host. -/
structure Machine (α : Type) where
  setting : Setting
  host : Host
  system : System α
  /-- What threads wait for from outside, in the order in which they began. -/
  waits : List Wait := []
  /-- The threads that can move, in the order of their turns. -/
  ready : List Thread := [.path []]
  /-- The thread whose turn it is. -/
  running : Option Thread := none
  canceller : Option Canceller := none

namespace Machine

variable {α : Type} (m : Machine α)

/-- The milliseconds on the clock. -/
def clock : Nat := m.system.world.clock

/-- The machine in another world. -/
def setWorld (world : World) : Machine α := { m with system := { m.system with world } }

/-- A thread can move, if it could not already. -/
def wake (t : Thread) : Machine α :=
  if m.ready.contains t then m else { m with ready := m.ready ++ [t] }

/-- The turn is over. -/
def pause : Machine α := { m with running := none }

/-- Cancels a run. Those who wait for approvals are woken. -/
def cancel (runId : Uuid) : Machine α × Option (Except RunError Unit) :=
  match m.system.world.perform (ExceptT.run (Orchestration.cancel runId)) with
  | none => (m, none)
  | some (result, world) =>
    let m := m.setWorld world
    if world.isCancelled runId then
      let waiting := m.waits.filter fun x => x.isApproval && x.runId == runId
      (waiting.foldl (fun m x => m.wake (.path x.path)) m, some result)
    else (m, some result)

/-- Cancels a run that has no record. -/
def trip (runId : Uuid) : Machine α := m.setWorld (m.system.world.cancelRun runId)

/-- A reaction changes the record and cancels the run. -/
def affect (x : Wait) : Machine α :=
  let m := m.setWorld (x.reaction.patch.applyTo m.system.world x.runId)
  if x.reaction.cancels then
    if x.runId = .nil then m.trip .nil else (m.cancel x.runId).1
  else m

/-- A thread waits no longer. -/
def dropWait (path : Path) : Machine α :=
  { m with waits := m.waits.filter fun x => x.path != path }

/-- A thread waits for something else. -/
def setWait (x : Wait) : Machine α :=
  { m with waits := m.waits.map fun y : Wait => if y.path == x.path then x else y }

/-- A thread is told what it waited for. -/
def deliver (x : Wait) (reply : (r : Request) → Option r.Reply) : Machine α :=
  let m := m.dropWait x.path
  let m := if x.counts then { m with host := m.host.leaveCall } else m
  match m.system.tell x.path reply with
  | some system => { m with system }
  | none => m.pause

/-- The reply if the time is up. -/
def timeUp : (r : Request) → Option r.Reply
  | .execute .. => some none
  | .awaitApproval .. => some .timedOut
  | _ => none

/-- The reply if the run is cancelled meanwhile. -/
def abandoned : (r : Request) → Option r.Reply
  | .awaitApproval .. => some .cancelled
  | _ => none

/-- A thread waits without an answer: the run may be cancelled, or the time be up. -/
def waitOn (x : Wait) : Machine α :=
  if x.isApproval && m.system.world.isCancelled x.runId then m.deliver x abandoned
  else if x.timeoutAt.any (· ≤ m.clock) then m.deliver x timeUp
  else (m.setWait x).pause

/-- A thread that waits looks whether there is an answer. -/
def poll (x : Wait) : Machine α :=
  if x.readyAt.any (· ≤ m.clock) then
    let m := m.affect x
    if x.reaction.hangs then m.waitOn { x with readyAt := none }
    else m.deliver x x.reaction.answer.reply
  else m.waitOn x

/-- A request is an approval. -/
def isApproval : Request → Bool
  | .awaitApproval .. => true
  | _ => false

/-- A thread begins to wait. -/
def beginWait (path : Path) (r : Request) : Machine α :=
  match m.host.begin? r with
  | none => m.pause
  | some b =>
    let x : Wait :=
      { path
        runId := b.runId
        reaction := b.reaction
        readyAt := some (m.clock + b.reaction.delayMs)
        timeoutAt := b.timeoutSecs.map fun secs => m.clock + secs * 1000
        isApproval := isApproval r
        counts := b.counts }
    let m := m.setWorld (m.system.world.note b.notice)
    { m with host := b.host, waits := m.waits ++ [x] }.poll x

/-- What a move opens or stops. -/
def after (path : Path) : Effect → Machine α
  | .opened n =>
    { m with ready := m.ready ++ (List.range n).map fun i => .path (path ++ [i]) }
  | .stopped => m.pause.wake (.path path.dropLast)
  | _ => m

/-- The thread whose turn it is goes on. -/
def proceed (path : Path) : Machine α :=
  match m.waits.find? fun x => x.path == path with
  | some x => m.poll x
  | none =>
    match m.system.move m.setting path with
    | some (system, effect) => { m with system }.after path effect
    | none =>
      match m.system.waitsFor? path with
      | some r => m.beginWait path r
      | none => m.pause

/-- Whoever is going to cancel the run does so when it is time. -/
def proceedCanceller : Machine α :=
  match m.canceller with
  | some c =>
    if c.due ≤ m.clock && c.result.isNone then
      let (m, result) := m.cancel c.runId
      { m with canceller := some { c with result } }.pause
    else m.pause
  | none => m.pause

/-- The deadlines to come, with the threads that are woken then. -/
def deadlines : List (Nat × Thread) :=
  (m.waits.filterMap fun x => x.deadline?.map fun d => (d, .path x.path)) ++
    match m.canceller with
    | some c => if c.result.isNone then [(c.due, .canceller)] else []
    | none => []

/-- The clock moves to the next deadline. -/
def advanceClock : Option (Machine α) :=
  match (m.deadlines.map Prod.fst).min? with
  | none => none
  | some d =>
    let threads := (m.deadlines.filter fun x => x.1 == d).map Prod.snd
    some <| threads.foldl wake (m.setWorld { m.system.world with clock := max d m.clock })

/-- One move of the thread whose turn it is, or of the clock. -/
def step : Option (Machine α) :=
  match m.running with
  | some (.path path) => some (m.proceed path)
  | some .canceller => some m.proceedCanceller
  | none =>
    match m.ready with
    | t :: ready => some { m with ready, running := some t }
    | [] => m.advanceClock

/-- Steps as long as there are any, at most `fuel`. -/
def run (fuel : Nat) (m : Machine α) : Machine α :=
  match fuel with
  | 0 => m
  | fuel + 1 =>
    match m.step with
    | some m => run fuel m
    | none => m

/-- A program at work. -/
def start (setting : Setting) (host : Host) (world : World) (p : Program α) : Machine α :=
  { setting, host, system := .ofProgram world p }

/-- The steps that a simulation may take. -/
def stepLimit : Nat := 1000000000

/-- What a program ends with, if it does, and what has become of its host and world. -/
def simulate (setting : Setting) (host : Host) (world : World) (p : Program α) : Machine α :=
  (start setting host world p).run stepLimit

end Machine

end WorkflowEngine.Simulation
