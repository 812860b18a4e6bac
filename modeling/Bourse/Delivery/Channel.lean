import Bourse.Delivery.StartError
import Bourse.Notice

/-!
# Channels

A channel is a bounded queue between a producer and a worker that hands the
events to a consumer, one after another. The producer offers events; the worker
takes the oldest and finishes it, and a consumer that fails on an event does not
hold up the next. A closed channel accepts nothing more but still hands on what
it has accepted.

The four steps `offer`, `take`, `finish` and `shut` may come in any order that
their own conditions allow; `drain` and `pause` are two ways for the worker to
go on, and `close` shuts the channel and lets the worker finish. An offer is two
things, one after the other: `push?` settles whether the event is accepted, and
`count` puts that on record.
-/

namespace Bourse

/-- How many events a channel has accepted, handed on, refused, and seen the consumer fail
on. -/
structure DeliveryCounters where
  enqueued : Nat
  delivered : Nat
  dropped : Nat
  failures : Nat
deriving DecidableEq

/-- The counters of a channel, with the number of events that wait. -/
structure DeliveryStats extends DeliveryCounters where
  queued : Nat
deriving DecidableEq

/-- A bounded queue with a worker. -/
structure Channel (α : Type) where
  name : String
  delivery : DeliveryConfig
  /-- Waiting events, oldest first. -/
  queue : List α
  /-- The event that the consumer is busy with. -/
  inHand : Option α
  /-- Events that the consumer finished without failing, oldest first. -/
  consumed : List α
  isOpen : Bool
  counters : DeliveryCounters
deriving DecidableEq

namespace Channel

variable {α : Type}

/-- The bytes that an event of a kind takes up in a ring, along with the mark of its place. -/
def placeBytes : EventKind → Nat
  | .trade => 128
  | .update => 136

/-- An open channel without any event yet. -/
def opened (name : String) (delivery : DeliveryConfig) : Channel α :=
  ⟨name, delivery, [], none, [], true, ⟨0, 0, 0, 0⟩⟩

/-- An open channel for events of one kind, without any yet. A channel needs room for one at
least, and its ring and its worker must be possible. -/
def start (name : String) (kind : EventKind) (delivery : DeliveryConfig) :
    Except StartError (Channel α) :=
  match delivery.validate with
  | .error e => .error (.refused e)
  | .ok () =>
    if StartError.ringBound ≤ delivery.capacity then .error .ringTooLarge
    else if StartError.addressBound ≤ delivery.capacity * placeBytes kind then
      .error .outOfAddresses
    else if '\x00' ∈ name.toList then .error (.nullInName name)
    else .ok (opened name delivery)

/-- What starting a channel puts on the log. -/
def startNotice (c : Channel α) : Notice := .workerStarted c.name c.delivery

/-- The queue has no room. -/
def isFull (c : Channel α) : Bool := c.delivery.capacity ≤ c.queue.length

/-- Puts an event at the end of the queue, if there is room. -/
def push? (c : Channel α) (a : α) : Option (Channel α) :=
  if c.isFull then none else some { c with queue := c.queue ++ [a] }

/-- Counts an event as accepted or as refused. -/
def count (accepted : Bool) (c : Channel α) : Channel α :=
  if accepted then
    { c with counters := { c.counters with enqueued := c.counters.enqueued + 1 } }
  else
    { c with counters := { c.counters with dropped := c.counters.dropped + 1 } }

/-- Offers an event. A closed channel drops it; a full one drops it too or, if the producer
is to wait, gives no answer until there is room. -/
def offer (c : Channel α) (a : α) : Option (Channel α × List Notice) :=
  if c.isOpen = false then some (c.count false, [])
  else
    match c.push? a with
    | some c => some (c.count true, [])
    | none =>
      match c.delivery.overflowPolicy with
      | .dropNewest => some (c.count false, [.queueFull c.name])
      | .block => none

/-- The worker takes the oldest event, unless it is busy or there is none. -/
def take (c : Channel α) : Option (Channel α) :=
  match c.inHand, c.queue with
  | none, a :: rest => some { c with inHand := some a, queue := rest }
  | _, _ => none

/-- The consumer is done with its event, which it failed on if `fails` says so. -/
def finish (fails : α → Bool) (c : Channel α) : Channel α :=
  match c.inHand with
  | none => c
  | some a =>
    if fails a then
      { c with
        inHand := none
        counters := { c.counters with failures := c.counters.failures + 1 } }
    else
      { c with
        inHand := none
        consumed := c.consumed ++ [a]
        counters := { c.counters with delivered := c.counters.delivered + 1 } }

/-- Takes and finishes up to `n` events. -/
def work (fails : α → Bool) : Nat → Channel α → Channel α
  | 0, c => c
  | n + 1, c =>
    match c.take with
    | none => c
    | some c => work fails n (c.finish fails)

/-- The worker goes on until nothing is left. -/
def drain (fails : α → Bool) (c : Channel α) : Channel α :=
  work fails c.queue.length (c.finish fails)

/-- The worker goes on to its next event and stays busy with it. -/
def pause (c : Channel α) : Channel α := c.take.getD c

/-- Accepts nothing more. -/
def shut (c : Channel α) : Channel α := { c with isOpen := false }

/-- Accepts nothing more and waits until everything accepted has been handed on. -/
def close (fails : α → Bool) (c : Channel α) : Channel α := c.shut.drain fails

/-- The counters as they stand. -/
def stats (c : Channel α) : DeliveryStats :=
  { c.counters with queued := if c.isOpen then c.queue.length else 0 }

end Channel

end Bourse
