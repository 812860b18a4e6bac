import Bourse.Order.Basic

/-!
# Price levels

A `Level` is the queue of the orders that rest at one price. The orders stand in the order
of their sequence numbers, where `enqueue` puts them, which is the order of their arrival,
so the front is the one to trade first. The level keeps the sum of what is left of its
orders beside them, in `total`.

An operation that stops at a fault may have changed an order before the sum went out of
range, as `fillFront` does.
-/

namespace Bourse

/-- The orders resting at a price, oldest first. -/
structure Level where
  price : Price
  orders : List Order
  total : Quantity
deriving DecidableEq

namespace Level

/-- A level without orders. -/
def empty (price : Price) : Level := ⟨price, [], 0⟩

/-- The oldest order. -/
def front? (l : Level) : Option Order := l.orders.head?

/-- The order with a sequence number. -/
def find? (l : Level) (sequence : Nat) : Option Order :=
  l.orders.find? fun o => o.sequence = sequence

/-- Puts an order at the place its sequence number asks for. -/
def enqueue (order : Order) : List Order → List Order
  | [] => [order]
  | o :: rest =>
    if order.sequence < o.sequence then order :: o :: rest else o :: enqueue order rest

/-- Replaces the order with a sequence number. -/
def replace (order : Order) (orders : List Order) : List Order :=
  orders.map fun o => if o.sequence = order.sequence then order else o

/-- Adds an order with something left and a sequence number of its own. -/
def push (order : Order) : Attempt Level Unit := do
  let level ← get
  if order.remaining ≤ 0 then Attempt.violate (.notRestable order.id)
  else if (level.find? order.sequence).isSome then Attempt.violate (.duplicateOrderId order.id)
  else
    match level.total.add? order.remaining with
    | none => Attempt.violate (.quantityOverflow level.price)
    | some total => set { level with orders := enqueue order level.orders, total }

/-- Takes an order out. -/
def remove (sequence : Nat) : Attempt Level (Option Order) := do
  let level ← get
  match level.find? sequence with
  | none => return none
  | some order =>
    modify fun l => { l with orders := l.orders.filter fun o => o.sequence ≠ sequence }
    let total ← Attempt.lift (orFault (level.total.sub order.remaining))
    modify fun l => { l with total }
    return some order

/-- Fills a quantity of the oldest order, which stays in front even if nothing of it is
left, and gives the order as it stands then. -/
def fillFront (quantity : Quantity) : Attempt Level Order := do
  let level ← get
  match level.orders with
  | [] => Attempt.violate (.emptyLevel level.price)
  | order :: rest =>
    let maker ← Attempt.lift (order.fill quantity)
    modify fun l => { l with orders := maker :: rest }
    let total ← Attempt.lift (orFault (level.total.sub quantity))
    modify fun l => { l with total }
    return maker

/-- Lessens what is left of an order, which keeps its place. -/
def reduce (sequence : Nat) (remaining : Quantity) : Attempt Level (Option Order) := do
  let level ← get
  match level.find? sequence with
  | none => return none
  | some order =>
    Attempt.focus order (fun o => { level with orders := replace o level.orders })
      (Order.setRemaining remaining)
    let without ← Attempt.lift (orFault (level.total.sub order.remaining))
    let total ← Attempt.lift (orFault (without.add remaining))
    modify fun l => { l with total }
    return (← get).find? sequence

end Level

end Bourse
