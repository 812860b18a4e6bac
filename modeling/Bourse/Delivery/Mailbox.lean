import Bourse.Delivery.StartError
import Bourse.Notice

/-!
# Mailboxes

A `Mailbox` is a bounded queue whose reader comes by when it likes. `send` never waits: an
event that finds the mailbox full, or its reader gone, is dropped and counted.
-/

namespace Bourse

/-- A bounded queue with a reader of its own. -/
structure Mailbox (α : Type) where
  capacity : Nat
  /-- Waiting events, oldest first; none once the reader is gone. -/
  waiting : Option (List α)
  dropped : Nat
deriving DecidableEq

namespace Mailbox

variable {α : Type}

/-- An empty mailbox, with room for one event at least. -/
def start (capacity : Nat) : Except StartError (Mailbox α) :=
  if StartError.maxPermits < capacity then .error .tooManyPermits
  else .ok ⟨max capacity 1, some [], 0⟩

/-- Sends an event. -/
def send (m : Mailbox α) (a : α) : Mailbox α × List Notice :=
  match m.waiting with
  | none => ({ m with dropped := m.dropped + 1 }, [])
  | some queue =>
    if queue.length < m.capacity then ({ m with waiting := some (queue ++ [a]) }, [])
    else ({ m with dropped := m.dropped + 1 }, [.mailboxFull])

/-- The reader takes the oldest event, if there is one. -/
def receive (m : Mailbox α) : Mailbox α × Option α :=
  match m.waiting with
  | some (a :: rest) => ({ m with waiting := some rest }, some a)
  | _ => (m, none)

/-- The reader goes, and what waits is lost. -/
def abandon (m : Mailbox α) : Mailbox α := { m with waiting := none }

end Mailbox

end Bourse
