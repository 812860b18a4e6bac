import Bourse.Attempt
import Bourse.Timestamp

/-!
# Orders

What a caller asks for is an `OrderIntent`; once accepted it becomes an `Order`. An order
keeps the quantity asked for and the quantity that is left, so what has been `filled` is
their difference, and `setRemaining` changes both.
-/

namespace Bourse

/-- What a caller asks for. Without an identity of its own the order is given one. -/
structure OrderIntent where
  symbol : String
  side : Side
  orderType : OrderType
  price : Option Price
  quantity : Quantity
  timeInForce : TimeInForce
  orderId : Option OrderId
deriving DecidableEq

namespace OrderIntent

/-- A limit order that waits until it is cancelled. -/
def limit (symbol : String) (side : Side) (price : Price) (quantity : Quantity) : OrderIntent :=
  ⟨symbol, side, .limit, some price, quantity, .goodTillCancel, none⟩

/-- A market order, of which nothing waits. -/
def market (symbol : String) (side : Side) (quantity : Quantity) : OrderIntent :=
  ⟨symbol, side, .market, none, quantity, .immediateOrCancel, none⟩

end OrderIntent

/-- An accepted order. Orders with a lower sequence number came earlier. -/
structure Order where
  id : OrderId
  symbol : String
  side : Side
  orderType : OrderType
  timeInForce : TimeInForce
  price : Option Price
  quantity : Quantity
  timestamp : Timestamp
  remaining : Quantity
  status : OrderStatus
  sequence : Nat
deriving DecidableEq

namespace Order

/-- The order that an intent becomes. -/
def ofIntent (id : OrderId) (now : Timestamp) (intent : OrderIntent) : Order where
  id := id
  symbol := intent.symbol
  side := intent.side
  orderType := intent.orderType
  timeInForce := intent.timeInForce
  price := intent.price
  quantity := intent.quantity
  timestamp := now
  remaining := intent.quantity
  status := .new
  sequence := 0

/-- The quantity that has been filled. -/
def filled (o : Order) : Except Fault Quantity := orFault (o.quantity.sub o.remaining)

/-- The order may trade at a price. -/
def Crosses (o : Order) (price : Price) : Prop := o.side.Crosses o.price price

instance (o : Order) (price : Price) : Decidable (o.Crosses price) :=
  inferInstanceAs (Decidable (o.side.Crosses o.price price))

/-- The order after a transition of its status, or the violation that forbids it. -/
def advance (t : OrderTransition) (o : Order) : Except Violation Order :=
  (o.status.advance t).map fun s => { o with status := s }

/-- The order after a cancellation. -/
def cancel (o : Order) : Except Violation Order := o.advance .cancel

/-- The order after a rejection. -/
def reject (o : Order) : Except Violation Order := o.advance .reject

/-- The order after a fill of a quantity, which must be positive and at most what is left. -/
def fill (quantity : Quantity) (o : Order) : Except Fault Order :=
  if quantity ≤ 0 ∨ o.remaining < quantity then
    .error (.violation (.overfill o.id o.remaining quantity))
  else
    match o.advance (if quantity.SameValue o.remaining then .fill else .partialFill) with
    | .error v => .error (.violation v)
    | .ok o' => (orFault (o.remaining.sub quantity)).map fun r => { o' with remaining := r }

/-- Replaces what is left of an order and keeps what has been filled. -/
def setRemaining (remaining : Quantity) : Attempt Order Unit := do
  let filled ← Attempt.lift (← get).filled
  modify fun o => { o with remaining }
  let quantity ← Attempt.lift (orFault (filled.add remaining))
  modify fun o => { o with quantity }

end Order

end Bourse
