import Bourse.Order.Basic
import Bourse.Rejection

/-!
# Events

What an engine tells the world: each `Trade`, and by an `OrderUpdate` how an order stands
after every change. Each kind makes a stream of its own, but both are stamped from one
counter, so the two streams of an instrument can be merged back into the order in which
they came about.
-/

namespace Bourse

/-- An execution between a resting order, the maker, and an incoming one, the taker. -/
structure Trade where
  id : Uuid
  symbol : String
  price : Price
  quantity : Quantity
  maker : OrderId
  taker : OrderId
  takerSide : Side
  sequence : Nat
  timestamp : Timestamp
deriving DecidableEq

/-- What is paid in all, if that fits. -/
def Trade.notional? (t : Trade) : Option Price := t.price.mul? t.quantity

/-- How an order stands. Only a rejected order carries a reason. -/
structure OrderUpdate where
  orderId : OrderId
  symbol : String
  status : OrderStatus
  remaining : Quantity
  filled : Quantity
  rejectReason : Option RejectReason
  timestamp : Timestamp
  sequence : Nat
deriving DecidableEq

namespace OrderUpdate

/-- The update that tells how an order stands. -/
def ofOrder (o : Order) (now : Timestamp) (sequence : Nat) : Except Fault OrderUpdate :=
  o.filled.map fun filled =>
    { orderId := o.id
      symbol := o.symbol
      status := o.status
      remaining := o.remaining
      filled
      rejectReason := none
      timestamp := now
      sequence }

/-- The update that tells why an order was rejected. -/
def rejected (o : Order) (reason : RejectReason) (now : Timestamp) (sequence : Nat) :
    Except Fault OrderUpdate :=
  (ofOrder o now sequence).map fun u => { u with rejectReason := some reason }

end OrderUpdate

/-- The kinds of events. -/
inductive EventKind where
  | trade
  | update
deriving DecidableEq

instance : Named EventKind where
  values := [.trade, .update]
  name
    | .trade => "trade"
    | .update => "order update"

/-- What is delivered to the sinks of an engine. -/
inductive Event where
  | trade (t : Trade)
  | update (u : OrderUpdate)
deriving DecidableEq

namespace Event

/-- The stamp of an event. -/
def sequence : Event → Nat
  | .trade t => t.sequence
  | .update u => u.sequence

/-- The kind of an event, which is the stream it belongs to. -/
def kind : Event → EventKind
  | .trade _ => .trade
  | .update _ => .update

end Event

end Bourse
