import PerpExchange.Basic
import PerpExchange.Metrics

/-!
A feed hands every published event to each of its subscribers. A subscriber has a buffer of bounded
size; when it is full, new events pass it by. A subscription that its reader has dropped is
forgotten at the next publication, and one that was cancelled can still be read out.
-/

namespace PerpExchange

/-- One subscription: whether events still reach it, whether anyone still reads it, and what is
buffered for the reader, oldest first. -/
structure Subscription (α : Type) where
  id : Nat
  registered : Bool
  held : Bool
  buffer : List α

structure Feed (α : Type) where
  capacity : Nat
  nextId : Nat
  subscriptions : List (Subscription α)

/-- How many subscribers got an event, and how many it passed by. -/
structure Delivery where
  delivered : Nat
  dropped : Nat
  deriving DecidableEq

namespace Feed

variable {α : Type}

/-- A feed whose buffers have room for a number of events, at least one. No buffer is laid out
before there is a subscription. -/
def new (capacity : Nat) : Feed α := ⟨max capacity 1, 1, []⟩

instance : Inhabited (Feed α) := ⟨new 1⟩

/-- The most events a buffer can be asked to have room for. -/
def maxCapacity : Nat := 4611686018427387903

/-- As many places as there are addresses. No buffer is as long as that. -/
def addressCount : Nat := 281474976710656

/-- Whether a buffer of the capacity of a feed can be laid out. -/
def checkCapacity (f : Feed α) : Checked Unit :=
  if maxCapacity < f.capacity then .error .bufferTooLarge
  else if addressCount ≤ f.capacity then .error .lengthOverflow
  else .ok ()

/-- Adds a subscription under a new id. -/
def register (f : Feed α) : Feed α × Nat :=
  ({ f with
    nextId := f.nextId + 1
    subscriptions := f.subscriptions ++ [⟨f.nextId, true, true, []⟩] }, f.nextId)

/-- Adds a subscription, if its buffer can be laid out. -/
def subscribe (f : Feed α) : Checked (Feed α × Nat) := do
  f.checkCapacity
  return f.register

/-- How many subscriptions events still reach. -/
def subscriberCount (f : Feed α) : Nat := f.subscriptions.countP Subscription.registered

/-- Changes the subscription of an id, if there is one. -/
def adjust (f : Feed α) (id : Nat) (g : Subscription α → Subscription α) : Feed α :=
  { f with subscriptions := f.subscriptions.map fun s => if s.id = id then g s else s }

/-- Cancels a subscription, and answers whether events reached it before. -/
def unsubscribe (f : Feed α) (id : Nat) : Feed α × Bool :=
  (f.adjust id fun s => { s with registered := false },
    f.subscriptions.any fun s => s.id = id && s.registered)

/-- Drops a subscription on the reader's side, and answers whether the reader had it. -/
def drop (f : Feed α) (id : Nat) : Feed α × Bool :=
  (f.adjust id fun s => { s with held := false, buffer := [] },
    f.subscriptions.any fun s => s.id = id && s.held)

/-- Whether an event goes into the buffer of a subscription. -/
def takes (f : Feed α) (s : Subscription α) : Bool :=
  s.registered && s.held && s.buffer.length < f.capacity

/-- Whether an event passes a subscription by for lack of room. -/
def misses (f : Feed α) (s : Subscription α) : Bool :=
  s.registered && s.held && f.capacity ≤ s.buffer.length

/-- A subscription after an event was published. -/
def offer (f : Feed α) (event : α) (s : Subscription α) : Subscription α :=
  if f.takes s then { s with buffer := s.buffer ++ [event] }
  else { s with registered := s.registered && s.held }

def publish (f : Feed α) (event : α) : Feed α × Delivery :=
  ({ f with subscriptions := f.subscriptions.map (f.offer event) },
    ⟨f.subscriptions.countP f.takes, f.subscriptions.countP f.misses⟩)

/-- What is buffered under an id, if the reader has that subscription. -/
def buffered? (f : Feed α) (id : Nat) : Option (List α) :=
  (f.subscriptions.find? fun s => s.id = id && s.held).map Subscription.buffer

/-- Takes the oldest buffered event, if there is one. -/
def receive (f : Feed α) (id : Nat) : Feed α × Option α :=
  (f.adjust id fun s => { s with buffer := s.buffer.tail }, (f.buffered? id).bind List.head?)

/-- Takes all buffered events. -/
def drain (f : Feed α) (id : Nat) : Feed α × List α :=
  (f.adjust id fun s => { s with buffer := [] }, (f.buffered? id).getD [])

end Feed

/-- Counts the events that passed subscribers by. -/
def Metrics.countDelivery (m : Metrics) (d : Delivery) : Metrics :=
  m.add .feedEventDropped d.dropped

end PerpExchange
