import WorkflowEngine.Bus

/-!
# Clones of a bus

A bus can be cloned. All clones are handles on one channel: what is published through one of them is
for the subscribers of all. The channel is closed when its handles are given up; subscribers may
still receive what it keeps.

## Main definitions

* `Bus.emit`: an event is handed to a bus, which may answer that this failed
* `SharedBus`: a channel and its handles
* `BusAction`, `BusAnswer`: what may be done with a bus, and what comes of it
* `SharedBus.perform`, `SharedBus.run`: one action, and several in a row
-/

namespace WorkflowEngine

/-- Why an event could not be handed on. -/
structure EventError where
  reason : String
deriving Repr, DecidableEq

/-- The text that says why an event could not be handed on. -/
def EventError.message (e : EventError) : String := "event emission failed: " ++ e.reason

/-- An event is handed on. That there are no subscribers is no failure. -/
def Bus.emit (b : Bus) (e : Event) : Except EventError Unit × Bus := (.ok (), b.publish e)

/-- A channel and the number of its handles, which are counted from zero. -/
structure SharedBus where
  channel : Bus
  handles : Nat

/-- What may be done with a bus. -/
inductive BusAction where
  | subscribe (handle : Nat) (name : String)
  | unsubscribe (name : String)
  | publish (handle : Nat) (e : Event)
  | emit (handle : Nat) (e : Event)
  | clone (handle : Nat)
  | close
  | receive (name : String)

/-- What comes of an action. -/
inductive BusAnswer where
  /-- The number of subscribers. -/
  | count (n : Nat)
  /-- Whether there was such a subscriber. -/
  | known (b : Bool)
  | done
  | emitted (result : Except EventError Unit)
  | received (r : Reception)
  /-- There is no such handle. -/
  | noBus

namespace SharedBus

/-- A bus for a number of events, with one handle. -/
def ofCapacity (n : Nat) : SharedBus := ⟨.ofCapacity n, 1⟩

/-- One action. -/
def perform (s : SharedBus) : BusAction → BusAnswer × SharedBus
  | .subscribe handle name =>
    if handle < s.handles then
      let channel := s.channel.subscribe name
      (.count channel.receiverCount, { s with channel })
    else (.noBus, s)
  | .unsubscribe name =>
    (.known (s.channel.isSubscribed name), { s with channel := s.channel.unsubscribe name })
  | .publish handle e =>
    if handle < s.handles then (.done, { s with channel := s.channel.publish e }) else (.noBus, s)
  | .emit handle e =>
    if handle < s.handles then
      let (result, channel) := s.channel.emit e
      (.emitted result, { s with channel })
    else (.noBus, s)
  | .clone handle =>
    if handle < s.handles then (.done, { s with handles := s.handles + 1 }) else (.noBus, s)
  | .close => (.done, ⟨s.channel.close, 0⟩)
  | .receive name =>
    let (r, channel) := s.channel.receive name
    (.received r, { s with channel })

/-- Several actions in a row, each with what comes of it. -/
def run (s : SharedBus) : List BusAction → List (BusAction × BusAnswer) × SharedBus
  | [] => ([], s)
  | a :: rest =>
    let (r, s) := s.perform a
    let (history, s) := s.run rest
    ((a, r) :: history, s)

end SharedBus

end WorkflowEngine
