import WorkflowEngine.Run.Program

/-!
# What runs share

The store, the clock, the runs that can be cancelled, and a log of everything that is seen from
outside. Requests that need no one to wait are served at once.

## Main definitions

* `Notice`: what is seen from outside
* `World`: what runs share
* `World.serve`: serves one request
* `World.release`: what ends a wait by itself
* `World.perform`: serves a program that never waits
-/

namespace WorkflowEngine

/-- What is seen from outside. -/
inductive Notice where
  /-- The number of an event is drawn. -/
  | event (event : Event)
  | reported (stepId : String) (error : StepError)
  /-- A simple step is handed out. -/
  | called (request : StepRequest) (caller : Caller)
  /-- An approval is asked for. -/
  | asked (stepId : String) (timeoutSecs : Nat) (prompt : Option String)
  /-- A simple step is left to someone as a whole. -/
  | delegated (stepId : String) (depth : Nat) (context : Context)
  /-- A step is over. -/
  | finished (stepId : String) (depth : Nat) (outcome : Outcome)

/-- The calls of the store. -/
inductive StoreCall where
  | getWorkflows
  | getWorkflow
  | createExecution
  | getExecution
  | updateExecution
  | getWorkItem
deriving Repr, DecidableEq

/-- The calls of the store with their names. -/
def StoreCall.all : List (String × StoreCall) :=
  [("getWorkflows", .getWorkflows), ("getWorkflow", .getWorkflow),
    ("createExecution", .createExecution), ("getExecution", .getExecution),
    ("updateExecution", .updateExecution), ("getWorkItem", .getWorkItem)]

/-- The name of a call. -/
def StoreCall.name : StoreCall → String
  | .getWorkflows => "getWorkflows"
  | .getWorkflow => "getWorkflow"
  | .createExecution => "createExecution"
  | .getExecution => "getExecution"
  | .updateExecution => "updateExecution"
  | .getWorkItem => "getWorkItem"

/-- A run that has begun and not ended. -/
structure ActiveRun where
  id : Uuid
  cancelled : Bool
  /-- The number of its events so far. -/
  events : Nat
deriving Repr, DecidableEq

/-- What runs share. -/
structure World where
  /-- The time at which the clock began. -/
  epoch : Timestamp
  /-- The milliseconds since then. -/
  clock : Nat
  store : Store
  /-- The records that cannot be found any more. -/
  hidden : List Uuid
  /-- The calls of the store that are going to fail once, each after a number of calls. -/
  faults : List (StoreCall × Nat)
  runs : List ActiveRun
  /-- The number of ids given out. -/
  ids : Nat
  /-- What was seen and when, the latest first. -/
  log : List (Nat × Notice)

namespace World

/-- A world at the beginning. -/
def ofStore (store : Store) : World :=
  { epoch := ⟨1735689600, 0⟩, clock := 0, store, hidden := [], faults := [], runs := [], ids := 0,
    log := [] }

variable (w : World)

/-- The time. -/
def now : Timestamp := w.epoch.addMs w.clock

/-- The world after something was seen. -/
def note (n : Notice) : World := { w with log := (w.clock, n) :: w.log }

/-- A new id. -/
def newId : Uuid × World :=
  (.ofTime (w.epoch.seconds.toNat * 1000 + w.clock) w.ids, { w with ids := w.ids + 1 })

/-! ### The store -/

/-- Counts a call of the store; it may fail. -/
def countCall (call : StoreCall) : Except StoreError Unit × World :=
  match w.faults.lookup call with
  | none => (.ok (), w)
  | some 0 =>
    (.error (.storage ("injected in " ++ call.name)),
      { w with faults := w.faults.filter fun f => f.1 != call })
  | some (n + 1) =>
    (.ok (),
      { w with faults := w.faults.map fun f => if f.1 == call then (call, n) else f })

/-- A call of the store that only looks. -/
def look {α : Type} (call : StoreCall) (value : Store → α) : Except StoreError α × World :=
  let (r, w) := w.countCall call
  (r.map fun () => value w.store, w)

/-- A call of the store that changes it. -/
def change (call : StoreCall) (result : Store → Except StoreError Store) :
    Except StoreError Unit × World :=
  let (r, w) := w.countCall call
  match r with
  | .error e => (.error e, w)
  | .ok () =>
    match result w.store with
    | .error e => (.error e, w)
    | .ok store => (.ok (), { w with store })

/-- The record with an id can be found. -/
def isVisible (id : Uuid) : Bool := !w.hidden.contains id

/-! ### Runs -/

/-- The run is cancelled. -/
def isCancelled (id : Uuid) : Bool := w.runs.any fun r => r.id == id && r.cancelled

/-- A run begins. -/
def beginRun (id : Uuid) : World :=
  { w with runs := ⟨id, false, 0⟩ :: w.runs.filter fun r => r.id != id }

/-- A run has ended. -/
def endRun (id : Uuid) : World := { w with runs := w.runs.filter fun r => r.id != id }

/-- Cancels a run. -/
def cancelRun (id : Uuid) : World :=
  { w with runs := w.runs.map fun r => if r.id == id then { r with cancelled := true } else r }

/-- The number of events of a run so far. -/
def eventCount (id : Uuid) : Nat := ((w.runs.find? fun r => r.id == id).map (·.events)).getD 0

/-- A run has one more event. -/
def countEvent (id : Uuid) : World :=
  { w with runs := w.runs.map fun r => if r.id == id then { r with events := r.events + 1 } else r }

/-- Announces what has happened in a run by its next event, whose number is drawn here. Whoever has
it drawn hands the event on afterwards, and others may come in between. -/
def emit (id : Uuid) (data : EventData) : World :=
  let (eventId, w) := w.newId
  let event : Event := .announce eventId id w.now (w.eventCount id + 1) data
  (w.countEvent id).note (.event event)

/-! ### Serving -/

/-- Serves a request that needs no one to wait. -/
def serve : (r : Request) → Option (r.Reply × World)
  | .getWorkflows => some (w.look .getWorkflows Store.getWorkflows)
  | .getWorkflow id => some (w.look .getWorkflow fun s => s.getWorkflow? id)
  | .createExecution e => some (w.change .createExecution fun s => s.createExecution e)
  | .getExecution id =>
    some (w.look .getExecution fun s => if w.isVisible id then s.getExecution? id else none)
  | .updateExecution e =>
    some (w.change .updateExecution fun s =>
      if w.isVisible e.id then s.updateExecution e else .error .notFound)
  | .getWorkItem id => some (w.look .getWorkItem fun s => s.getWorkItem? id)
  | .now => some (w.now, w)
  | .newId => some w.newId
  | .beginRun id => some ((), w.beginRun id)
  | .endRun id => some ((), w.endRun id)
  | .cancelRun id => some ((), w.cancelRun id)
  | .isCancelled id => some (w.isCancelled id, w)
  | .emit id data => some ((), w.emit id data)
  | .report _ stepId error => some ((), w.note (.reported stepId error))
  | .runStep .. => none
  | .execute .. => none
  | .awaitApproval .. => none
  | .delegate .. => none

/-- What ends a wait by itself: an approval is not waited for any longer once its run is
cancelled. -/
def release : (r : Request) → Option r.Reply
  | .awaitApproval id .. => if w.isCancelled id then some .cancelled else none
  | _ => none

/-- Serves a program to its end, if it never waits. -/
def perform {α : Type} (w : World) : Program α → Option (α × World)
  | .done a => some (a, w)
  | .ask r k =>
    match w.serve r with
    | some (reply, w) => perform w (k reply)
    | none => none

end World

end WorkflowEngine
