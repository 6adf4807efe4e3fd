import WorkflowEngine.Record.Event

/-!
# The event bus

Events are handed to all who have subscribed before. Only the latest events are kept; a subscriber
that is too slow is told how many it has missed and goes on with the oldest one that is kept.

## Main definitions

* `Bus`: the events that are kept and the place of each subscriber
* `Bus.publish`, `Bus.receive`: one event in, one event out
* `Reception`: what a subscriber gets
-/

namespace WorkflowEngine

/-- A subscriber and the number of the event it gets next. -/
structure Subscriber where
  name : String
  next : Nat
deriving Repr, DecidableEq

/-- The events that are kept, the latest first, and how many there have been. -/
structure Bus where
  capacity : Nat
  kept : List Event := []
  published : Nat := 0
  subscribers : List Subscriber := []
  isOpen : Bool := true
deriving Repr

/-- What a subscriber gets. -/
inductive Reception where
  | event (e : Event)
  | lagged (missed : Nat)
  | empty
  | closed
  | unknown
deriving Repr

namespace Bus

/-- The least power of two that is at least `n`, among those from `power` on. -/
def powerFrom (n : Nat) : Nat → Nat → Nat
  | 0, power => power
  | fuel + 1, power => if n ≤ power then power else powerFrom n fuel (2 * power)

/-- The number of events that are kept for a wish: at least one, and a power of two. -/
def roundedCapacity (n : Nat) : Nat := powerFrom n 64 1

/-- A bus for a number of events. -/
def ofCapacity (n : Nat) : Bus := { capacity := roundedCapacity n }

/-- The number of subscribers. -/
def receiverCount (b : Bus) : Nat := b.subscribers.length

/-- The bus without a subscriber. -/
def unsubscribe (b : Bus) (name : String) : Bus :=
  { b with subscribers := b.subscribers.filter fun s => s.name != name }

/-- There is a subscriber of a name. -/
def isSubscribed (b : Bus) (name : String) : Bool := b.subscribers.any fun s => s.name == name

/-- A subscriber gets all events from now on. -/
def subscribe (b : Bus) (name : String) : Bus :=
  let b := b.unsubscribe name
  { b with subscribers := b.subscribers ++ [⟨name, b.published⟩] }

/-- An event for all subscribers. -/
def publish (b : Bus) (e : Event) : Bus :=
  { b with kept := (e :: b.kept).take b.capacity, published := b.published + 1 }

/-- No more events will be published. -/
def close (b : Bus) : Bus := { b with isOpen := false }

/-- The number of the oldest event that is kept. -/
def oldest (b : Bus) : Nat := b.published - b.kept.length

/-- The place of a subscriber moves on. -/
def advance (b : Bus) (name : String) (next : Nat) : Bus :=
  { b with subscribers := b.subscribers.map fun s => if s.name == name then ⟨name, next⟩ else s }

/-- What a subscriber gets next. -/
def receive (b : Bus) (name : String) : Reception × Bus :=
  match b.subscribers.find? fun s => s.name == name with
  | none => (.unknown, b)
  | some s =>
    if s.next < b.oldest then (.lagged (b.oldest - s.next), b.advance name b.oldest)
    else
      match b.kept.reverse[s.next - b.oldest]? with
      | some e => (.event e, b.advance name (s.next + 1))
      | none => (if b.isOpen then .empty else .closed, b)

end Bus

end WorkflowEngine
